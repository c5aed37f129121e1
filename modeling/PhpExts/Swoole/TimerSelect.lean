import PhpExts.Swoole.Timer
import Mathlib

/-!
# Calling the timers that are due

`swTimer_select` takes the first timer of the heap as long as it is due, calls it, and then
gives it a later time or takes it away. What the callbacks do is given as one list of calls
for every callback that is called.

In every run the events follow the plan: the timer that is taken away is the one that has
been called, whatever its callback has added and deleted, and in the end none is due
(`follows_of_fits`). It takes that no callback adds a timer that is due before its own.
-/

namespace PhpExts.Swoole.Timer

open PhpExts.Library
open Function (update update_of_ne update_self)
open List (length_map map_map not_mem_nil)

def postpone (interval : Nat) (now : Int) : Nat → Int → Int
  | 0, execMsec => execMsec
  | rounds + 1, execMsec =>
    if execMsec ≤ now then postpone interval now rounds (execMsec + interval) else execMsec

structure Result where
  timer : Timer
  events : List TimerEvent
  calls : List (Timer × Int × TimerCall)

def runCalls : List (Int × TimerCall) → Timer → Result
  | [], timer => ⟨timer, [], []⟩
  | (now, call) :: calls, timer =>
    let (called, events) := timer.call now call
    let later := runCalls calls called
    ⟨later.timer, events ++ later.events, (timer, now, call) :: later.calls⟩

/-- The part of the loop of `swTimer_select` behind the callback. -/
def finish (now : Int) (tmp : NodePtr) (tnode : TimerPtr) (timerId : Int) (timer : Timer) :
    Timer × List TimerEvent :=
  let node := timer.tnodes tnode
  if 0 < node.interval ∧ node.remove = false then
    let execMsec := postpone node.interval now ((now - node.execMsec).toNat + 1) node.execMsec
    ({ timer with
        tnodes := update timer.tnodes tnode { node with execMsec }
        heap := timer.heap.swHeapChangePriority (asUInt64 execMsec) tmp },
      [.rescheduled (timer.heap.data tmp) execMsec])
  else
    ({ timer with
        num := timer.num - 1
        heap := timer.heap.swHeapPop.1
        map := swHashMapDelInt timer.map timerId },
      [.popped timer.heap.swHeapPop.2 (swHashMapFindInt timer.map timerId)])

/-- The callback of the node at the top, with its calls. -/
def callback (now : Int) (tnode : TimerPtr) (calls : List (Int × TimerCall)) (timer : Timer) :
    Result :=
  let node := timer.tnodes tnode
  let current := { timer with currentId := node.id }
  if node.remove then ⟨current, [], []⟩
  else
    let ran := runCalls calls current
    { ran with events := .called tnode node.execMsec now :: ran.events }

/-- The loop of `swTimer_select`. -/
def selectLoop (now : Int) : Nat → List (List (Int × TimerCall)) → Timer → Result
  | 0, _, timer => ⟨timer, [], []⟩
  | rounds + 1, callbacks, timer =>
    match timer.heap.swHeapTop with
    | none => ⟨timer, [], []⟩
    | some tmp =>
      let tnode := timer.heap.data tmp
      if now < (timer.tnodes tnode).execMsec then ⟨timer, [], []⟩
      else
        let returned := callback now tnode (callbacks.headD []) timer
        let (finished, events) := finish now tmp tnode (timer.tnodes tnode).id
          { returned.timer with currentId := -1 }
        let later := selectLoop now rounds callbacks.tail finished
        ⟨later.timer, returned.events ++ events ++ later.events, returned.calls ++ later.calls⟩

/-- `swTimer_select`, which reads the time `now` and comes to an end at the time `later`.
Every round takes a timer that has been there, or that one of the calls has added. -/
def swTimerSelect (timer : Timer) (now later : Int) (callbacks : List (List (Int × TimerCall))) :
    Result :=
  if now < 0 then ⟨timer, [], []⟩
  else
    let selected := selectLoop now (timer.heap.num + (callbacks.map List.length).sum) callbacks timer
    let system := selected.timer.system
    let events := selected.events ++ [.selected now]
    match selected.timer.heap.swHeapTop with
    | none =>
      ⟨{ selected.timer with nextMsec := -1, system := system.set later (-1) }, events,
        selected.calls⟩
    | some tmp =>
      let tnode := selected.timer.tnodes (selected.timer.heap.data tmp)
      ⟨{ selected.timer with system := system.set later (tnode.execMsec - now) }, events,
        selected.calls⟩

variable {timer : Timer} {entries : List (Entry TimerPtr)} {plan : Plan} {now : Int}

theorem postpone_spec {interval : Nat} (positive : 0 < interval) (rounds : Nat) (execMsec : Int)
    (enough : now - execMsec < rounds) (low : execMsec ≤ now + interval) :
    now < postpone interval now rounds execMsec ∧
      postpone interval now rounds execMsec ≤ now + interval ∧
      execMsec ≤ postpone interval now rounds execMsec := by
  induction rounds generalizing execMsec with
  | zero =>
    rw [postpone]
    omega
  | succ rounds ih =>
    rw [postpone]
    split
    · have later := ih (execMsec + interval) (by omega) (by omega)
      omega
    · omega

theorem Agrees.setCurrent (agrees : Agrees timer entries)
    (unmarked : ∀ entry ∈ entries, (timer.tnodes entry.data).remove = false) (id : Int) :
    Agrees { timer with currentId := id } entries :=
  { agrees with
    removed := fun entry mem removed => by
      rw [unmarked entry mem] at removed
      exact absurd removed Bool.false_ne_true }

theorem Follows.unmarked (follows : Follows timer plan entries) (idle : plan.calling = none) :
    ∀ entry ∈ entries, (timer.tnodes entry.data).remove = false := by
  intro entry mem
  refine Bool.eq_false_iff.mpr fun removed => ?_
  have id := follows.agrees.removed entry mem removed
  have positive := follows.agrees.id entry mem
  rw [id, follows.idle idle] at positive
  omega

def Plan.due (plan : Plan) (now : Int) : Nat :=
  plan.pending.countP fun timing => timing.execMsec ≤ now

theorem countP_lt {α : Type} {p q : α → Bool} {xs : List α} {x : α}
    (weaker : ∀ y ∈ xs, q y = true → p y = true) (mem : x ∈ xs) (holds : p x = true)
    (fails : q x = false) : xs.countP q < xs.countP p := by
  induction xs with
  | nil => exact absurd mem not_mem_nil
  | cons y ys ih =>
    have rest : ys.countP q ≤ ys.countP p :=
      List.countP_mono_left fun z member' => weaker z (.tail _ member')
    rcases List.mem_cons.mp mem with rfl | later
    · rw [List.countP_cons_of_pos holds, List.countP_cons_of_neg (by rw [fails]; exact Bool.false_ne_true)]
      omega
    · have less := ih (fun z member' => weaker z (.tail _ member')) later
      by_cases here : q y = true
      · rw [List.countP_cons_of_pos here, List.countP_cons_of_pos (weaker y (.head _) here)]
        omega
      · rw [List.countP_cons_of_neg here, List.countP_cons]
        omega

theorem call_due {plan' : Plan} {call : TimerCall} (time : Int)
    (accepts : Accepts plan (timer.call now call).2 plan') :
    plan'.due time ≤ plan.due time + 1 := by
  have shape : (timer.call now call).2 = [] ∨
      (∃ tnode execMsec interval, (timer.call now call).2 = [.added tnode execMsec interval]) ∨
      ∃ tnode, (timer.call now call).2 = [.deleted tnode] := by
    cases call with
    | add msec interval =>
      rw [Timer.call, swTimerAdd]
      split
      · exact .inl rfl
      · dsimp only
        split
        · exact .inl rfl
        · exact .inr (.inl ⟨_, _, _, rfl⟩)
    | del tnode =>
      rw [Timer.call, swTimerDel]
      split
      · exact .inl rfl
      · split
        · exact .inr (.inr ⟨_, rfl⟩)
        · split
          · exact .inl rfl
          · exact .inr (.inr ⟨_, rfl⟩)
  rcases shape with none | ⟨tnode, execMsec, interval, one⟩ | ⟨tnode, one⟩
  · rw [none] at accepts
    cases accepts
    exact Nat.le_succ _
  · rw [one] at accepts
    obtain _ | ⟨first, ⟨⟩⟩ := accepts
    cases first
    rw [Plan.due, Plan.due, List.countP_append]
    exact Nat.add_le_add_left (List.countP_le_length (p := _) (l := [_])) _
  · rw [one] at accepts
    obtain _ | ⟨first, ⟨⟩⟩ := accepts
    cases first with
    | deleted =>
      rw [Plan.due, Plan.due]
      exact (List.Sublist.countP_le List.filter_sublist).trans (Nat.le_succ _)
    | marked =>
      rw [Plan.due, Plan.due, List.countP_map]
      refine (List.countP_mono_left fun other _ holds => ?_).trans (Nat.le_succ _)
      simp only [Function.comp_apply] at holds
      split at holds
      · exact holds
      · exact holds

theorem runCalls_follows (calls : List (Int × TimerCall)) (follows : Follows timer plan entries)
    (time : 0 ≤ now) (times : ∀ call ∈ calls, now ≤ call.1)
    (later : ∀ tnode start, plan.calling = some (tnode, start) → start ≤ now)
    (fits : ∀ call ∈ (runCalls calls timer).calls, Fits call.1 call.2.1 call.2.2) :
    ∃ plan' entries', Accepts plan (runCalls calls timer).events plan' ∧
      Follows (runCalls calls timer).timer plan' entries' ∧ plan'.calling = plan.calling ∧
      plan'.due now ≤ plan.due now + calls.length := by
  induction calls generalizing timer plan entries with
  | nil => exact ⟨plan, entries, .nil, follows, rfl, Nat.le_refl _⟩
  | cons call calls ih =>
    obtain ⟨start, call⟩ := call
    have first : now ≤ start := times _ (.head _)
    obtain ⟨plan₁, entries₁, accepts₁, follows₁, calling₁⟩ := call_follows follows
      (Int.le_trans time first) (fits _ (.head _))
      fun tnode begun called => Int.le_trans (later tnode begun called) first
    obtain ⟨plan₂, entries₂, accepts₂, follows₂, calling₂, due₂⟩ := ih follows₁
      (fun call mem => times call (.tail _ mem))
      (fun tnode begun called => later tnode begun (calling₁ ▸ called))
      fun call mem => fits call (.tail _ mem)
    have due₁ := call_due now accepts₁
    refine ⟨plan₂, entries₂, accepts₁.append accepts₂, follows₂, calling₂.trans calling₁, ?_⟩
    rw [List.length_cons]
    omega

theorem runCalls_kept (calls : List (Int × TimerCall)) (timer : Timer) {tnode : TimerPtr}
    (old : tnode < timer.nextTnode) :
    ((runCalls calls timer).timer.tnodes tnode).heapNode = (timer.tnodes tnode).heapNode ∧
      ((runCalls calls timer).timer.tnodes tnode).id = (timer.tnodes tnode).id := by
  induction calls generalizing timer with
  | nil => exact ⟨rfl, rfl⟩
  | cons call calls ih =>
    obtain ⟨heapNode, id, old'⟩ := call_kept timer call.1 call.2 old
    obtain ⟨heapNode', id'⟩ := ih (timer.call call.1 call.2).1 old'
    exact ⟨heapNode'.trans heapNode, id'.trans id⟩

theorem Agrees.reschedule (agrees : Agrees timer entries) {entry : Entry TimerPtr}
    (mem : entry ∈ entries) (execMsec : Int) (low : 0 ≤ execMsec) (high : execMsec < 2 ^ 64) :
    Agrees { timer with
      tnodes := update timer.tnodes entry.data
        { timer.tnodes entry.data with execMsec := execMsec }
      heap := timer.heap.swHeapChangePriority (asUInt64 execMsec) entry.node }
      (entries.map (Session.reprioritize (asUInt64 execMsec) entry.node)) := by
  have held : Session.Live ⟨timer.heap, entries⟩ entry.node := ⟨entry, mem, rfl⟩
  have data (other : Entry TimerPtr) :
      (Session.reprioritize (asUInt64 execMsec) entry.node other).data = other.data :=
    Session.data_reprioritize _ _ other
  have node (other : Entry TimerPtr) :
      (Session.reprioritize (asUInt64 execMsec) entry.node other).node = other.node :=
    Session.node_reprioritize _ _ other
  have changed (tnode : TimerPtr) : ∃ time, update timer.tnodes entry.data
      { timer.tnodes entry.data with execMsec := execMsec } tnode =
        { timer.tnodes tnode with execMsec := time } := by
    by_cases here : tnode = entry.data
    · exact ⟨execMsec, by rw [here, update_self]⟩
    · exact ⟨_, update_of_ne here _ _⟩
  have each {motive : Entry TimerPtr → Prop}
      (all : ∀ other ∈ entries, motive (Session.reprioritize (asUInt64 execMsec) entry.node other)) :
      ∀ other ∈ entries.map (Session.reprioritize (asUInt64 execMsec) entry.node),
        motive other := by
    intro other member'
    obtain ⟨old, member'', rfl⟩ := List.mem_map.mp member'
    exact all old member''
  obtain ⟨slots, reordered⟩ := Heap.reordered_changePriority timer.heap (asUInt64 execMsec) entry.node
  exact {
    session := agrees.session.change held agrees.small _
    type := by
      rw [reordered]
      exact agrees.type
    size := by
      rw [reordered]
      exact agrees.size
    small := by
      rw [reordered]
      exact agrees.small
    node := each fun other member' => by
      obtain ⟨time, eq⟩ := changed other.data
      simp only [data, node, eq]
      exact agrees.node other member'
    exec := each fun other member' => by
      simp only [data]
      by_cases here : other = entry
      · subst here
        rw [update_self, Session.reprioritize, if_pos rfl]
        exact (asUInt64_eq low high).symm
      · have apart : other.data ≠ entry.data := fun same =>
          here (agrees.data_inj member' mem same)
        rw [update_of_ne apart, Session.reprioritize,
          if_neg fun same => here (agrees.node_inj member' mem same)]
        exact agrees.exec other member'
    interval := each fun other member' => by
      obtain ⟨time, eq⟩ := changed other.data
      simp only [data, eq]
      exact agrees.interval other member'
    id := each fun other member' => by
      obtain ⟨time, eq⟩ := changed other.data
      simp only [data, eq]
      exact agrees.id other member'
    keys := by
      refine each fun other member' => each fun another member'' => ?_
      obtain ⟨time, eq⟩ := changed other.data
      obtain ⟨time', eq'⟩ := changed another.data
      simp only [data, eq, eq']
      exact fun same => congrArg _ (agrees.keys other member' another member'' same)
    map := by
      rw [map_map]
      refine agrees.map.trans (List.Perm.of_eq (List.map_congr_left fun other member' => ?_))
      obtain ⟨time, eq⟩ := changed other.data
      simp only [Function.comp_apply, keyed, data, eq]
    allocated := each fun other member' => by
      rw [data]
      exact agrees.allocated other member'
    num := by
      rw [length_map]
      exact agrees.num
    nextId := agrees.nextId
    removed := each fun other member' => by
      obtain ⟨time, eq⟩ := changed other.data
      simp only [data, eq]
      exact agrees.removed other member' }

theorem finish_follows (follows : Follows timer plan entries) {tnode : TimerPtr}
    (calling : plan.calling = some (tnode, now)) (time : 0 ≤ now) (limit : now < 2 ^ 63)
    {tmp : NodePtr} (heapNode : (timer.tnodes tnode).heapNode = tmp) {timerId : Int}
    (number : (timer.tnodes tnode).id = timerId) : ∃ plan' entries',
      Accepts plan (finish now tmp tnode timerId { timer with currentId := -1 }).2 plan' ∧
      Follows (finish now tmp tnode timerId { timer with currentId := -1 }).1 plan' entries' ∧
      plan'.calling = none ∧ plan'.due now < plan.due now := by
  obtain ⟨agrees, pending, given, idle, called⟩ := follows
  obtain ⟨entry, mem, rfl, root, id, due⟩ := called tnode now calling
  have planned : timer.timing entry.data ∈ plan.pending := by
    rw [pending]
    exact List.mem_map_of_mem mem
  have exec := agrees.exec entry mem
  have dueNow : decide ((timer.timing entry.data).execMsec ≤ now) = true :=
    decide_eq_true (show (timer.tnodes entry.data).execMsec ≤ now by omega)
  obtain rfl : tmp = entry.node := heapNode.symm.trans (agrees.node entry mem)
  subst timerId
  have data : timer.heap.data entry.node = entry.data := (agrees.session.kept entry mem).2
  have num := agrees.lt_num mem
  rw [finish]
  by_cases again : 0 < (timer.tnodes entry.data).interval ∧ (timer.tnodes entry.data).remove = false
  · obtain ⟨later, most, grows⟩ := @postpone_spec now (timer.tnodes entry.data).interval again.1
      ((now - (timer.tnodes entry.data).execMsec).toNat + 1) (timer.tnodes entry.data).execMsec
      (by omega) (by omega)
    have interval := agrees.interval entry mem
    have unmarked : ∀ other ∈ entries, (timer.tnodes other.data).remove = false := by
      intro other member'
      refine Bool.eq_false_iff.mpr fun removed => ?_
      have same := agrees.removed other member' removed
      obtain rfl := agrees.keys other member' entry mem (by
        rw [sameKey, same, id, decide_eq_true_eq])
      rw [again.2] at removed
      exact Bool.false_ne_true removed
    have agrees' := (agrees.setCurrent unmarked (-1)).reschedule mem
      (postpone (timer.tnodes entry.data).interval now
        ((now - (timer.tnodes entry.data).execMsec).toNat + 1) (timer.tnodes entry.data).execMsec)
      (by omega) (by omega)
    rw [if_pos again]
    simp only [data]
    refine ⟨_, _, .single (.rescheduled planned again.2 calling again.1 later),
      ⟨agrees', ?_, given, fun _ => rfl, by rintro _ _ ⟨⟩⟩, rfl, ?_⟩
    · simp only [pending, map_map]
      refine List.map_congr_left fun other member' => ?_
      have same : (Session.reprioritize (asUInt64 (postpone (timer.tnodes entry.data).interval now
          ((now - (timer.tnodes entry.data).execMsec).toNat + 1)
          (timer.tnodes entry.data).execMsec)) entry.node other).data = other.data :=
        Session.data_reprioritize _ _ other
      by_cases this : other.data = entry.data
      · simp only [Function.comp_apply, timing, same, this, if_true, update_self]
      · simp only [Function.comp_apply, timing, same, this, if_false, update_of_ne this]
    · rw [Plan.due, Plan.due, List.countP_map]
      refine countP_lt (fun other _ => ?_) planned dueNow ?_
      · simp only [Function.comp_apply]
        split
        · simp only [decide_eq_true_eq]
          omega
        · exact fun holds => holds
      · simp only [Function.comp_apply, timing, if_true, decide_eq_false_iff_not]
        omega
  · have held : Session.Live ⟨timer.heap, entries⟩ entry.node := ⟨entry, mem, rfl⟩
    have some : ¬ timer.heap.num = 1 := by omega
    have session : Session.Agrees ⟨timer.heap.swHeapPop.1,
        entries.filter fun other => other.node ≠ entry.node⟩ := by
      have := @Session.Agrees.next _ ⟨timer.heap, entries⟩ .pop agrees.session trivial agrees.small
      rwa [Session.next, ← root] at this
    have reordered : Heap.Reordered (timer.heap.moveLast 1) timer.heap.swHeapPop.1 := by
      rw [Heap.swHeapPop, if_neg some]
      exact Heap.reordered_percolateDown _ _
    have unmarked : ∀ other ∈ entries.filter (fun other => other.node ≠ entry.node),
        (timer.tnodes other.data).remove = false := by
      intro other member'
      obtain ⟨member', apart⟩ := List.mem_filter.mp member'
      refine Bool.eq_false_iff.mpr fun removed => ?_
      have same := agrees.removed other member' removed
      obtain rfl := agrees.keys other member' entry mem (by
        rw [sameKey, same, id, decide_eq_true_eq])
      simp at apart
    have agrees' := (agrees.without mem ⟨1, reordered⟩ session).setCurrent unmarked (-1)
    have fromHeap : timer.heap.swHeapPop.2 = Option.some entry.data := by
      rw [Heap.swHeapPop, if_neg some, ← root, data]
    have ended : (timer.timing entry.data).deleted = true ∨
        (timer.timing entry.data).interval = 0 := by
      cases removed : (timer.tnodes entry.data).remove with
      | true => exact .inl removed
      | false => exact .inr (Nat.eq_zero_of_not_pos fun positive => again ⟨positive, removed⟩)
    rw [if_neg again, fromHeap]
    simp only [agrees.find mem]
    refine ⟨_, _, .single (.popped planned calling ended),
      ⟨agrees', ?_, given, fun _ => rfl, by rintro _ _ ⟨⟩⟩, rfl, ?_⟩
    · simp only [pending]
      exact agrees.timing_filter mem
    · rw [Plan.due, Plan.due, List.countP_filter]
      refine countP_lt (fun other _ both => (Bool.and_eq_true_iff.mp both).1) planned dueNow ?_
      simp [timing]

theorem Agrees.top (agrees : Agrees timer entries) : (timer.heap.swHeapTop = none ∧ entries = []) ∨
      ∃ entry ∈ entries, timer.heap.swHeapTop = some entry.node ∧
        entry.node = timer.heap.nodes 1 ∧ timer.heap.data entry.node = entry.data ∧
        ∀ other ∈ entries, entry.priority ≤ other.priority := by
  have positive : 1 ≤ timer.heap.num := agrees.session.good.positive
  by_cases empty : timer.heap.num = 1
  · refine .inl ⟨by rw [Heap.swHeapTop, if_pos empty], ?_⟩
    refine List.eq_nil_iff_forall_not_mem.mpr fun entry mem => ?_
    have := agrees.lt_num mem
    omega
  · obtain ⟨entry, mem, root⟩ := (agrees.session.good.sound.content (timer.heap.nodes 1)).mp
      (BinaryHeap.Slots.mem_contents.mpr ⟨1, Nat.le_refl 1, by simp only; omega, rfl⟩)
    obtain ⟨priority, data⟩ := agrees.session.kept entry mem
    refine .inr ⟨entry, mem, by rw [Heap.swHeapTop, if_neg empty, root], root, data,
      fun other member' => ?_⟩
    have top := agrees.session.good.top ⟨other, member', rfl⟩
    have priority' : timer.heap.priority other.node = other.priority :=
      (agrees.session.kept other member').1
    have priority : timer.heap.priority (timer.heap.nodes 1) = entry.priority := by
      rw [← root]
      exact priority
    change ¬ swHeapCompare timer.heap.type (timer.heap.priority (timer.heap.nodes 1))
      (timer.heap.priority other.node) = true at top
    rw [agrees.type, priority, priority', swHeapCompare, decide_eq_true_eq] at top
    omega

theorem callback_follows (follows : Follows timer plan entries) (idle : plan.calling = none)
    (time : 0 ≤ now) {entry : Entry TimerPtr} (mem : entry ∈ entries)
    (root : entry.node = timer.heap.nodes 1) (due : (entry.priority : Int) ≤ now)
    (calls : List (Int × TimerCall)) (times : ∀ call ∈ calls, now ≤ call.1)
    (fits : ∀ call ∈ (callback now entry.data calls timer).calls, Fits call.1 call.2.1 call.2.2) :
    ∃ plan' entries', Accepts plan (callback now entry.data calls timer).events plan' ∧
      Follows (callback now entry.data calls timer).timer plan' entries' ∧
      plan'.calling = some (entry.data, now) ∧ plan'.due now ≤ plan.due now + calls.length ∧
      ((callback now entry.data calls timer).timer.tnodes entry.data).heapNode = entry.node ∧
      ((callback now entry.data calls timer).timer.tnodes entry.data).id =
        (timer.tnodes entry.data).id := by
  have unmarked := follows.unmarked idle
  have agrees := follows.agrees
  have planned : timer.timing entry.data ∈ plan.pending := by
    rw [follows.pending]
    exact List.mem_map_of_mem mem
  have exec := agrees.exec entry mem
  have called : Allows plan (.called entry.data (timer.tnodes entry.data).execMsec now)
      { plan with calling := some (entry.data, now) } :=
    .called planned (unmarked entry mem) idle
      (show (timer.tnodes entry.data).execMsec ≤ now by omega)
  have follows' : Follows { timer with currentId := (timer.tnodes entry.data).id }
      { plan with calling := some (entry.data, now) } entries :=
    ⟨agrees.setCurrent unmarked _, follows.pending, follows.given,
      fun impossible => (by cases impossible), fun tnode start same => by
        obtain ⟨rfl, rfl⟩ := Prod.mk.inj (Option.some.inj same)
        exact ⟨entry, mem, rfl, root, rfl, due⟩⟩
  have notRemoved : ¬ (timer.tnodes entry.data).remove = true := by
    rw [unmarked entry mem]
    exact Bool.false_ne_true
  rw [callback, if_neg notRemoved] at fits ⊢
  obtain ⟨plan', entries', accepts', follows'', calling', due'⟩ := runCalls_follows calls follows' time
    times (fun tnode start same => by
      obtain ⟨-, rfl⟩ := Prod.mk.inj (Option.some.inj same)
      exact Int.le_refl _) fits
  obtain ⟨heapNode, id⟩ := runCalls_kept calls { timer with currentId := (timer.tnodes entry.data).id }
    (agrees.allocated entry mem)
  exact ⟨plan', entries', .cons called accepts', follows'', calling', due',
    heapNode.trans (agrees.node entry mem), id⟩

theorem selectLoop_follows (rounds : Nat) (callbacks : List (List (Int × TimerCall)))
    (follows : Follows timer plan entries) (idle : plan.calling = none) (time : 0 ≤ now)
    (limit : now < 2 ^ 63) (times : ∀ calls ∈ callbacks, ∀ call ∈ calls, now ≤ call.1)
    (fits : ∀ call ∈ (selectLoop now rounds callbacks timer).calls, Fits call.1 call.2.1 call.2.2)
    (enough : plan.due now + (callbacks.map List.length).sum < rounds) :
    ∃ plan' entries', Accepts plan (selectLoop now rounds callbacks timer).events plan' ∧
      Follows (selectLoop now rounds callbacks timer).timer plan' entries' ∧
      plan'.calling = none ∧ ∀ timing ∈ plan'.pending, now < timing.execMsec := by
  induction rounds generalizing callbacks timer plan entries with
  | zero => exact absurd enough (Nat.not_lt_zero _)
  | succ rounds ih =>
    have agrees := follows.agrees
    have pending := follows.pending
    rw [selectLoop] at fits ⊢
    rcases agrees.top with ⟨none, rfl⟩ | ⟨entry, mem, top, root, data, first⟩
    · simp only [none]
      refine ⟨plan, [], .nil, follows, idle, fun timing mem => ?_⟩
      rw [pending] at mem
      exact absurd mem not_mem_nil
    · simp only [top, data] at fits ⊢
      have exec := agrees.exec entry mem
      by_cases late : now < (timer.tnodes entry.data).execMsec
      · simp only [late, if_true]
        refine ⟨plan, entries, .nil, follows, idle, fun timing member' => ?_⟩
        rw [pending] at member'
        obtain ⟨other, member'', rfl⟩ := List.mem_map.mp member'
        have exec' := agrees.exec other member''
        have := first other member''
        change now < (timer.tnodes other.data).execMsec
        omega
      · simp only [late, if_false] at fits ⊢
        have times₁ : ∀ call ∈ callbacks.headD [], now ≤ call.1 := by
          cases callbacks with
          | nil => exact fun call impossible => absurd impossible not_mem_nil
          | cons calls others => exact times calls (.head _)
        have count : (callbacks.headD []).length + (callbacks.tail.map List.length).sum =
            (callbacks.map List.length).sum := by
          cases callbacks with
          | nil => rfl
          | cons calls others => rw [List.map_cons, List.sum_cons]; rfl
        obtain ⟨plan₁, entries₁, accepts₁, follows₁, calling₁, due₁, heapNode, id⟩ :=
          callback_follows follows idle time mem root (by omega) (callbacks.headD []) times₁
            fun call member' => fits call (List.mem_append_left _ member')
        obtain ⟨plan₂, entries₂, accepts₂, follows₂, calling₂, due₂⟩ :=
          finish_follows follows₁ calling₁ time limit heapNode id
        obtain ⟨plan₃, entries₃, accepts₃, follows₃, calling₃, none⟩ := ih callbacks.tail follows₂
          calling₂ (fun calls member' => times calls (List.mem_of_mem_tail member'))
          (fun call member' => fits call (List.mem_append_right _ member')) (by omega)
        exact ⟨plan₃, entries₃, (accepts₁.append accepts₂).append accepts₃, follows₃, calling₃, none⟩

theorem Follows.setSystem (follows : Follows timer plan entries) (nextMsec : Int)
    (system : SystemTimer) :
    Follows { timer with nextMsec := nextMsec, system := system } plan entries :=
  { agrees := { follows.agrees with }
    pending := follows.pending
    given := follows.given
    idle := follows.idle
    calling := follows.calling }

theorem Agrees.num_eq (agrees : Agrees timer entries) : timer.heap.num = entries.length + 1 := by
  have length := agrees.session.correct.content.length_eq
  have positive : 1 ≤ timer.heap.num := agrees.session.good.positive
  rw [BinaryHeap.Slots.length_contents, length_map] at length
  simp only at length
  omega

theorem calls_swTimerSelect (timer : Timer) (now later : Int)
    (callbacks : List (List (Int × TimerCall))) (time : 0 ≤ now) :
    (swTimerSelect timer now later callbacks).calls =
      (selectLoop now (timer.heap.num + (callbacks.map List.length).sum) callbacks timer).calls := by
  rw [swTimerSelect, if_neg (Int.not_lt.mpr time)]
  dsimp only
  split <;> rfl

theorem Follows.rounds (follows : Follows timer plan entries) (now : Int)
    (callbacks : List (List (Int × TimerCall))) : plan.due now + (callbacks.map List.length).sum <
      timer.heap.num + (callbacks.map List.length).sum := by
  have most : plan.due now ≤ plan.pending.length := List.countP_le_length
  rw [follows.pending, length_map] at most
  have num := follows.agrees.num_eq
  omega

/-- **`swTimer_select` follows the plan, and none is due behind it.** -/
theorem select_follows (follows : Follows timer plan entries) (idle : plan.calling = none)
    (time : 0 ≤ now) (limit : now < 2 ^ 63) (later : Int)
    (callbacks : List (List (Int × TimerCall)))
    (times : ∀ calls ∈ callbacks, ∀ call ∈ calls, now ≤ call.1)
    (fits : ∀ call ∈ (swTimerSelect timer now later callbacks).calls, Fits call.1 call.2.1 call.2.2) :
    ∃ plan' entries', Accepts plan (swTimerSelect timer now later callbacks).events plan' ∧
      Follows (swTimerSelect timer now later callbacks).timer plan' entries' ∧
      plan'.calling = none := by
  have future : ¬ now < 0 := Int.not_lt.mpr time
  rw [calls_swTimerSelect timer now later callbacks time] at fits
  obtain ⟨plan', entries', accepts, follows', idle', none⟩ := selectLoop_follows _ callbacks follows
    idle time limit times fits (follows.rounds now callbacks)
  refine ⟨plan', entries', ?_⟩
  have accepts' := accepts.append (.single (.selected idle' none))
  rw [swTimerSelect, if_neg future]
  dsimp only
  split
  · exact ⟨accepts', follows'.setSystem _ _, idle'⟩
  · exact ⟨accepts', follows'.setSystem _ _, idle'⟩

/-- A call of one of the functions: `swTimer_select` with the time at which it returns, and
with what its callbacks do. -/
inductive Op where
  | call (now : Int) (call : TimerCall)
  | select (now later : Int) (callbacks : List (List (Int × TimerCall)))

structure Run where
  timer : Timer
  events : List TimerEvent
  clock : Int

/-- `swTimer_init` with `swSystemTimer_init`, in a memory with any content; the time is
counted from here. -/
def swTimerInit (msec : Int) (useTimerfd : Bool) (memory : Timer) : Timer :=
  { memory with
    heap := Heap.swHeapNew 1024 .minHeap memory.heap
    map := []
    num := 0
    currentId := -1
    nextId := 1
    nextMsec := msec
    system := ⟨useTimerfd, 0, msec, if 0 < msec then some msec else none⟩ }

namespace Run

def result (run : Run) : Op → Result
  | .call now call =>
    let (timer, events) := run.timer.call now call
    ⟨timer, events, [(run.timer, now, call)]⟩
  | .select now later callbacks =>
    swTimerSelect { run.timer with system := run.timer.system.elapse now } now later callbacks

def returns : Op → Int
  | .call now _ => now
  | .select _ later _ => later

def next (run : Run) (op : Op) : Run :=
  ⟨(run.result op).timer, run.events ++ (run.result op).events, returns op⟩

/-- Time does not go back, and is in the range of `int64_t`. -/
def Timed (run : Run) : Op → Prop
  | .call now _ => run.clock ≤ now ∧ 0 ≤ now ∧ now < 2 ^ 63
  | .select now later callbacks => run.clock ≤ now ∧ 0 ≤ now ∧ now < 2 ^ 63 ∧ now ≤ later ∧
    ∀ calls ∈ callbacks, ∀ call ∈ calls, now ≤ call.1 ∧ call.1 ≤ later

/-- Every call of `swTimer_add` and `swTimer_del` fits where it is made. -/
def Fit (run : Run) (op : Op) : Prop :=
  ∀ call ∈ (run.result op).calls, Fits call.1 call.2.1 call.2.2

instance (run : Run) : (op : Op) → Decidable (run.Timed op)
  | .call _ _ => inferInstanceAs (Decidable (_ ∧ _))
  | .select _ _ _ => inferInstanceAs (Decidable (_ ∧ _))

instance (run : Run) (op : Op) : Decidable (run.Fit op) :=
  inferInstanceAs (Decidable (∀ call ∈ (run.result op).calls, _))

inductive Reached (msec : Int) (useTimerfd : Bool) (memory : Timer) (admits : Run → Op → Prop) :
    Run → Prop
  | start : Reached msec useTimerfd memory admits ⟨swTimerInit msec useTimerfd memory, [], 0⟩
  | step {run : Run} (op : Op) (earlier : Reached msec useTimerfd memory admits run)
      (admitted : admits run op) : Reached msec useTimerfd memory admits (run.next op)

variable {run : Run} {op : Op}

theorem next_follows (follows : Follows run.timer plan entries) (idle : plan.calling = none)
    (timed : run.Timed op) (fit : run.Fit op) :
    ∃ plan' entries', Accepts plan (run.result op).events plan' ∧
      Follows (run.next op).timer plan' entries' ∧ plan'.calling = none := by
  cases op with
  | call now call =>
    obtain ⟨plan', entries', accepts, follows', calling⟩ := call_follows follows timed.2.1
      (fit _ (List.mem_singleton_self _)) fun tnode start impossible => by
        rw [idle] at impossible
        cases impossible
    exact ⟨plan', entries', accepts, follows', calling.trans idle⟩
  | select now later callbacks =>
    obtain ⟨-, time, limit, -, times⟩ := timed
    exact select_follows (follows.setSystem run.timer.nextMsec (run.timer.system.elapse now)) idle
      time limit later callbacks (fun calls mem call member' => (times calls mem call member').1)
      fit

end Run

theorem follows_start (msec : Int) (useTimerfd : Bool) (memory : Timer) :
    Follows (swTimerInit msec useTimerfd memory) ⟨[], none, memory.nextTnode⟩ [] where
  agrees := {
    session := Session.agrees_start 1024 .minHeap memory.heap
    type := rfl
    size := show 0 < (1024 + 1) % 2 ^ 32 by decide
    small := show 1 ≤ 2 ^ 31 by decide
    node := fun entry mem => absurd mem not_mem_nil
    exec := fun entry mem => absurd mem not_mem_nil
    interval := fun entry mem => absurd mem not_mem_nil
    id := fun entry mem => absurd mem not_mem_nil
    keys := fun entry mem => absurd mem not_mem_nil
    map := .nil
    allocated := fun entry mem => absurd mem not_mem_nil
    num := rfl
    nextId := show (1 : Int) ≠ 0 ∧ (1 : Int) < 2 ^ 63 by decide
    removed := fun entry mem => absurd mem not_mem_nil }
  pending := rfl
  given := rfl
  idle := fun _ => rfl
  calling := nofun

/-- The heap and the map hold the timers of the plan, which are counted, with the times
that are planned. -/
structure Keeps (timer : Timer) (plan : Plan) : Prop where
  heap : ((timer.heap.slots.contents timer.heap.num).map timer.heap.data).Perm
    (plan.pending.map Timing.tnode)
  map : (timer.map.map Prod.snd).Perm (plan.pending.map Timing.tnode)
  num : timer.num = plan.pending.length
  times : ∀ timing ∈ plan.pending, timer.timing timing.tnode = timing

theorem Follows.keeps (follows : Follows timer plan entries) : Keeps timer plan := by
  obtain ⟨agrees, pending, -⟩ := follows
  have tnodes : plan.pending.map Timing.tnode = entries.map Entry.data := by
    rw [pending, map_map]
    rfl
  refine ⟨?_, ?_, ?_, fun timing mem => ?_⟩
  · have nodes : (timer.heap.slots.contents timer.heap.num).Perm (entries.map Entry.node) :=
      agrees.session.correct.content
    rw [tnodes]
    refine (nodes.map timer.heap.data).trans (List.Perm.of_eq ?_)
    rw [map_map]
    exact List.map_congr_left fun entry mem => (agrees.session.kept entry mem).2
  · rw [tnodes]
    refine (agrees.map.map Prod.snd).trans (List.Perm.of_eq ?_)
    rw [map_map]
    rfl
  · rw [pending, length_map]
    exact agrees.num
  · rw [pending] at mem
    obtain ⟨entry, -, rfl⟩ := List.mem_map.mp mem
    rfl

/-- **In every run whose calls fit the events follow a plan: timers are called when they are
due and while they are planned, each select calls all that are due, the timer that is taken
away is the one that has been called, and the heap and the map hold what is planned.** -/
theorem follows_of_fits {msec : Int} {useTimerfd : Bool} {memory : Timer} {run : Run}
    (reached : Run.Reached msec useTimerfd memory (fun run op => run.Timed op ∧ run.Fit op) run) :
    ∃ plan, Accepts ⟨[], none, memory.nextTnode⟩ run.events plan ∧ plan.calling = none ∧
      Keeps run.timer plan := by
  have follows : ∃ plan entries, Accepts ⟨[], none, memory.nextTnode⟩ run.events plan ∧
      plan.calling = none ∧ Follows run.timer plan entries := by
    induction reached with
    | start => exact ⟨_, _, .nil, rfl, follows_start msec useTimerfd memory⟩
    | step op earlier admitted ih =>
      obtain ⟨plan, entries, accepts, idle, follows⟩ := ih
      obtain ⟨plan', entries', accepts', follows', idle'⟩ :=
        Run.next_follows follows idle admitted.1 admitted.2
      exact ⟨plan', entries', accepts.append accepts', idle', follows'⟩
  obtain ⟨plan, entries, accepts, idle, follows⟩ := follows
  exact ⟨plan, accepts, idle, follows.keeps⟩

def blank : Timer :=
  ⟨Session.blank, [], fun _ => ⟨0, 0, 0, 0, false⟩, 0, 0, 0, 0, 0, ⟨true, 0, 0, none⟩⟩

def Run.after (msec : Int) (ops : List Op) : Run :=
  ops.foldl Run.next ⟨swTimerInit msec true blank, [], 0⟩

theorem follows_two : ∃ plan,
    Accepts ⟨[], none, 0⟩ (Run.after 10 [.call 0 (.add 10 true), .call 0 (.add 10 false),
      .select 10 10 [[(10, .del 0)], [(10, .add 5 false)]]]).events plan ∧ plan.calling = none ∧
      Keeps (Run.after 10 [.call 0 (.add 10 true), .call 0 (.add 10 false),
        .select 10 10 [[(10, .del 0)], [(10, .add 5 false)]]]).timer plan := by
  have initial : Run.Reached 10 true blank (fun run op => run.Timed op ∧ run.Fit op) (Run.after 10 []) :=
    .start
  have first := initial.step (.call 0 (.add 10 true)) ⟨by decide, by decide⟩
  have second := first.step (.call 0 (.add 10 false)) ⟨by decide, by decide⟩
  exact follows_of_fits (second.step (.select 10 10 [[(10, .del 0)], [(10, .add 5 false)]])
    ⟨by decide, by decide⟩)

/-- The conversion of a time that is too long to `int` gives `-2 ^ 31`: the timer is due at
once, but behind all others in the heap. -/
theorem not_follows_negative : ∃ run, Run.Reached 1000 true blank Run.Timed run ∧
    ¬ ∃ plan, Accepts ⟨[], none, 0⟩ run.events plan := by
  have initial : Run.Reached 1000 true blank Run.Timed (Run.after 1000 []) := .start
  have first := initial.step (.call 0 (.add 1000 false)) (by decide)
  have second := first.step (.call 10 (.add (-2 ^ 31) false)) (by decide)
  refine ⟨_, second.step (.select 20 20 []) (by decide), ?_⟩
  have events : ((((Run.after 1000 []).next (.call 0 (.add 1000 false))).next
      (.call 10 (.add (-2 ^ 31) false))).next (.select 20 20 [])).events =
        [.added 0 1000 0, .added 1 (10 - 2 ^ 31) 0, .selected 20] := rfl
  rw [events]
  rintro ⟨plan, accepts⟩
  obtain _ | ⟨one, accepts⟩ := accepts
  cases one
  obtain _ | ⟨two, accepts⟩ := accepts
  cases two
  obtain _ | ⟨three, accepts⟩ := accepts
  cases three with
  | selected idle late =>
    have late := late ⟨1, 10 - 2 ^ 31, 0, false⟩ (by simp)
    exact absurd late (by decide)

end PhpExts.Swoole.Timer
