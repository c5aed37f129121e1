import PhpExts.Swoole.Heap
import Mathlib.Algebra.Order.Ring.Int

/-!
# The timers of Swoole

A timer is in a heap by the time at which it is due, and in a map by its number.
`swTimer_select` calls the timers that are due, and their callbacks may add and delete
timers; the one whose callback runs is only marked.

`Plan` says what timers are for, one event after the other: what is called has been added
and not deleted and is due, what is taken away after a callback is what has been called,
and a timer with an interval gets a later time. A call of `swTimer_add` or of `swTimer_del`
follows the plan (`call_follows`), in and outside of a callback.
-/

namespace PhpExts.Swoole

open Function (update update_of_ne update_self)

/-- The address of a `swTimer_node`. -/
abbrev TimerPtr := Nat

/-- `swTimer_node` without its callback. -/
structure TimerNode where
  heapNode : NodePtr
  execMsec : Int
  interval : Nat
  id : Int
  remove : Bool

/-- The system's timer, with the static variable `current_interval`, the period it has been
given, and its first expiry that no call of `swTimer_select` has followed. -/
structure SystemTimer where
  useTimerfd : Bool
  currentInterval : Int
  period : Int
  expiry : Option Int

/-- `swSystemTimer_set` at a time. No interval disarms a `setitimer`, and a negative one a
`timerfd`. -/
def SystemTimer.set (system : SystemTimer) (now newInterval : Int) : SystemTimer :=
  if newInterval = system.currentInterval then system
  else
    let arms := if system.useTimerfd then 0 ≤ newInterval else 0 < newInterval
    { system with
      currentInterval := newInterval
      period := newInterval
      expiry := if arms then some (now + newInterval) else none }

/-- The expiries up to a time are followed by a call of `swTimer_select`. -/
def SystemTimer.elapse (system : SystemTimer) (now : Int) : SystemTimer :=
  match system.expiry with
  | none => system
  | some expiry =>
    if now < expiry then system
    else if 0 < system.period then
      { system with expiry := some (expiry + ((now - expiry) / system.period + 1) * system.period) }
    else { system with expiry := none }

/-- `swTimer`, with its nodes by their addresses. `nextTnode` is the address the next
allocation gives; no address is given twice. -/
structure Timer where
  heap : Heap TimerPtr
  map : List (Int × TimerPtr)
  tnodes : TimerPtr → TimerNode
  nextTnode : TimerPtr
  num : Int
  currentId : Int
  nextId : Int
  nextMsec : Int
  system : SystemTimer

inductive TimerEvent where
  | added (tnode : TimerPtr) (execMsec : Int) (interval : Nat)
  | deleted (tnode : TimerPtr)
  | called (tnode : TimerPtr) (execMsec now : Int)
  | rescheduled (tnode : TimerPtr) (execMsec : Int)
  | popped (fromHeap fromMap : Option TimerPtr)
  | selected (now : Int)

/-- A call of `swTimer_add` or `swTimer_del`. -/
inductive TimerCall where
  | add (msec : Int) (interval : Bool)
  | del (tnode : TimerPtr)

namespace Timer

/-- The map compares `sizeof(int)` bytes of its keys. -/
def sameKey (id key : Int) : Bool := id % 2 ^ 32 = key % 2 ^ 32

def swHashMapFindInt (map : List (Int × TimerPtr)) (id : Int) : Option TimerPtr :=
  (map.find? fun entry => sameKey entry.1 id).map Prod.snd

def swHashMapDelInt (map : List (Int × TimerPtr)) (id : Int) : List (Int × TimerPtr) :=
  map.eraseP fun entry => sameKey entry.1 id

/-- The conversion to `uint64_t`. -/
def asUInt64 (x : Int) : Nat := (x % 2 ^ 64).toNat

/-- The conversion to `long`. -/
def asLong (x : Int) : Int := (x + 2 ^ 63) % 2 ^ 64 - 2 ^ 63

def newId (timer : Timer) : Int := if timer.nextId < 0 then 1 else timer.nextId

/-- `swTimer_add` at a time. -/
def swTimerAdd (timer : Timer) (now msec : Int) (interval : Bool) : Timer × List TimerEvent :=
  if now < 0 then (timer, [])
  else
    let execMsec := now + msec
    let armed :=
      if timer.nextMsec < 0 ∨ msec < timer.nextMsec then
        { timer with system := timer.system.set now msec, nextMsec := msec }
      else timer
    let numbered :=
      { armed with
        nextId := if timer.nextId < 0 then 2 else asLong (timer.nextId + 1)
        num := timer.num + 1 }
    match timer.heap.swHeapPush (asUInt64 execMsec) timer.nextTnode with
    | (heap, none) => ({ numbered with heap }, [])
    | (heap, some heapNode) =>
      let period := if interval then asUInt64 msec % 2 ^ 32 else 0
      ({ numbered with
          heap
          tnodes := update timer.tnodes timer.nextTnode
            ⟨heapNode, execMsec, period, timer.newId, false⟩
          nextTnode := timer.nextTnode + 1
          map := (timer.newId, timer.nextTnode) :: timer.map },
        [.added timer.nextTnode execMsec period])

def swTimerDel (timer : Timer) (tnode : TimerPtr) : Timer × List TimerEvent :=
  let node := timer.tnodes tnode
  if node.remove then (timer, [])
  else if 0 < timer.currentId ∧ node.id = timer.currentId then
    ({ timer with tnodes := update timer.tnodes tnode { node with remove := true } },
      [.deleted tnode])
  else if swHashMapFindInt timer.map node.id = none then (timer, [])
  else
    ({ timer with
        map := swHashMapDelInt timer.map node.id
        heap := timer.heap.swHeapRemove node.heapNode
        num := timer.num - 1 },
      [.deleted tnode])

def call (timer : Timer) (now : Int) : TimerCall → Timer × List TimerEvent
  | .add msec interval => swTimerAdd timer now msec interval
  | .del tnode => swTimerDel timer tnode

/-- What is planned for a timer: the time at which it is due, and the period of one that is
to be called again. -/
structure Timing where
  tnode : TimerPtr
  execMsec : Int
  interval : Nat
  deleted : Bool

/-- The timers, the one that is being called with the time of the call, and how many have
been added. -/
structure Plan where
  pending : List Timing
  calling : Option (TimerPtr × Int)
  given : Nat

inductive Allows : Plan → TimerEvent → Plan → Prop
  | added {plan : Plan} {execMsec : Int} {interval : Nat} :
      Allows plan (.added plan.given execMsec interval)
        { plan with
          pending := plan.pending ++ [⟨plan.given, execMsec, interval, false⟩]
          given := plan.given + 1 }
  | deleted {plan : Plan} {timing : Timing} (member : timing ∈ plan.pending)
      (planned : timing.deleted = false)
      (other : ∀ now, plan.calling ≠ some (timing.tnode, now)) :
      Allows plan (.deleted timing.tnode)
        { plan with pending := plan.pending.filter fun other => other.tnode ≠ timing.tnode }
  | marked {plan : Plan} {timing : Timing} {now : Int} (member : timing ∈ plan.pending)
      (planned : timing.deleted = false) (calling : plan.calling = some (timing.tnode, now)) :
      Allows plan (.deleted timing.tnode)
        { plan with
          pending := plan.pending.map fun other =>
            if other.tnode = timing.tnode then { other with deleted := true } else other }
  | called {plan : Plan} {timing : Timing} {now : Int} (member : timing ∈ plan.pending)
      (planned : timing.deleted = false) (idle : plan.calling = none)
      (due : timing.execMsec ≤ now) :
      Allows plan (.called timing.tnode timing.execMsec now)
        { plan with calling := some (timing.tnode, now) }
  | rescheduled {plan : Plan} {timing : Timing} {now execMsec : Int}
      (member : timing ∈ plan.pending) (planned : timing.deleted = false)
      (calling : plan.calling = some (timing.tnode, now)) (again : 0 < timing.interval)
      (later : now < execMsec) :
      Allows plan (.rescheduled timing.tnode execMsec)
        { plan with
          pending := plan.pending.map fun other =>
            if other.tnode = timing.tnode then { other with execMsec := execMsec } else other
          calling := none }
  | popped {plan : Plan} {timing : Timing} {now : Int} (member : timing ∈ plan.pending)
      (calling : plan.calling = some (timing.tnode, now))
      (ended : timing.deleted = true ∨ timing.interval = 0) :
      Allows plan (.popped (some timing.tnode) (some timing.tnode))
        { plan with
          pending := plan.pending.filter fun other => other.tnode ≠ timing.tnode
          calling := none }
  | selected {plan : Plan} {now : Int} (idle : plan.calling = none)
      (none : ∀ timing ∈ plan.pending, now < timing.execMsec) : Allows plan (.selected now) plan

inductive Accepts : Plan → List TimerEvent → Plan → Prop
  | nil {plan : Plan} : Accepts plan [] plan
  | cons {plan plan' last : Plan} {event : TimerEvent} {events : List TimerEvent}
      (first : Allows plan event plan') (others : Accepts plan' events last) :
      Accepts plan (event :: events) last

theorem Accepts.append {plan plan' last : Plan} {events events' : List TimerEvent}
    (first : Accepts plan events plan') (second : Accepts plan' events' last) :
    Accepts plan (events ++ events') last := by
  induction first with
  | nil => exact second
  | cons first others ih => exact .cons first (ih second)

theorem Accepts.single {plan plan' : Plan} {event : TimerEvent} (allows : Allows plan event plan') :
    Accepts plan [event] plan' := .cons allows .nil

def timing (timer : Timer) (tnode : TimerPtr) : Timing :=
  ⟨tnode, (timer.tnodes tnode).execMsec, (timer.tnodes tnode).interval, (timer.tnodes tnode).remove⟩

def keyed (timer : Timer) (entry : Entry TimerPtr) : Int × TimerPtr :=
  ((timer.tnodes entry.data).id, entry.data)

/-- The heap is sound, its nodes and those of the map belong together, and their keys are
different. -/
structure Agrees (timer : Timer) (entries : List (Entry TimerPtr)) : Prop where
  session : Session.Agrees ⟨timer.heap, entries⟩
  type : timer.heap.type = .minHeap
  size : 0 < timer.heap.size
  small : timer.heap.num ≤ 2 ^ 31
  node : ∀ entry ∈ entries, (timer.tnodes entry.data).heapNode = entry.node
  exec : ∀ entry ∈ entries, (timer.tnodes entry.data).execMsec = entry.priority
  interval : ∀ entry ∈ entries, (timer.tnodes entry.data).interval < 2 ^ 32
  id : ∀ entry ∈ entries, 0 < (timer.tnodes entry.data).id
  keys : ∀ entry ∈ entries, ∀ other ∈ entries,
    sameKey (timer.tnodes entry.data).id (timer.tnodes other.data).id = true → entry = other
  map : timer.map.Perm (entries.map timer.keyed)
  allocated : ∀ entry ∈ entries, entry.data < timer.nextTnode
  num : timer.num = entries.length
  nextId : timer.nextId ≠ 0 ∧ timer.nextId < 2 ^ 63
  removed : ∀ entry ∈ entries, (timer.tnodes entry.data).remove = true →
    (timer.tnodes entry.data).id = timer.currentId

variable {timer : Timer} {entries : List (Entry TimerPtr)} {plan : Plan}

theorem Agrees.data_inj (agrees : Agrees timer entries) {entry other : Entry TimerPtr}
    (mem : entry ∈ entries) (member' : other ∈ entries) (same : entry.data = other.data) :
    entry = other :=
  agrees.keys entry mem other member' (by rw [same, sameKey, decide_eq_true_eq])

theorem Agrees.find (agrees : Agrees timer entries) {entry : Entry TimerPtr}
    (mem : entry ∈ entries) :
    swHashMapFindInt timer.map (timer.tnodes entry.data).id = some entry.data := by
  have inside : timer.keyed entry ∈ timer.map :=
    agrees.map.mem_iff.mpr (List.mem_map_of_mem mem)
  rw [swHashMapFindInt]
  cases found : timer.map.find? fun other => sameKey other.1 (timer.tnodes entry.data).id with
  | none =>
    refine absurd ?_ (List.find?_eq_none.mp found _ inside)
    simp only [keyed, sameKey, decide_true]
  | some key =>
    have inside' := agrees.map.mem_iff.mp (List.mem_of_find?_eq_some found)
    obtain ⟨other, member', rfl⟩ := List.mem_map.mp inside'
    have same := List.find?_some found
    rw [agrees.keys other member' entry mem same]
    rfl

theorem Agrees.of_find (agrees : Agrees timer entries) {id : Int} {tnode : TimerPtr}
    (found : swHashMapFindInt timer.map id = some tnode) :
    ∃ entry ∈ entries, entry.data = tnode := by
  rw [swHashMapFindInt] at found
  obtain ⟨key, first, rfl⟩ := Option.map_eq_some_iff.mp found
  have inside := agrees.map.mem_iff.mp (List.mem_of_find?_eq_some first)
  obtain ⟨entry, mem, rfl⟩ := List.mem_map.mp inside
  exact ⟨entry, mem, rfl⟩

theorem perm_filter {entry : Entry TimerPtr} (mem : entry ∈ entries)
    (distinct : (entries.map Entry.node).Nodup) :
    entries.Perm (entry :: entries.filter fun other => other.node ≠ entry.node) := by
  induction entries with
  | nil => exact absurd mem List.not_mem_nil
  | cons first others ih =>
    rw [List.map_cons, List.nodup_cons] at distinct
    rcases List.mem_cons.mp mem with rfl | later
    · have kept : others.filter (fun other => other.node ≠ entry.node) = others := by
        refine List.filter_eq_self.mpr fun other member' => decide_eq_true fun same => ?_
        exact distinct.1 (same ▸ List.mem_map_of_mem member')
      rw [List.filter_cons_of_neg (by simp), kept]
    · have apart : first.node ≠ entry.node := fun same =>
        distinct.1 (same ▸ List.mem_map_of_mem later)
      rw [List.filter_cons_of_pos (by simpa using apart)]
      exact ((ih later distinct.2).cons first).trans (.swap _ _ _)

theorem Agrees.map_del (agrees : Agrees timer entries) {entry : Entry TimerPtr}
    (mem : entry ∈ entries) : (swHashMapDelInt timer.map (timer.tnodes entry.data).id).Perm
      ((entries.filter fun other => other.node ≠ entry.node).map timer.keyed) := by
  have inside : timer.keyed entry ∈ timer.map :=
    agrees.map.mem_iff.mpr (List.mem_map_of_mem mem)
  obtain ⟨key, front, back, -, same, whole, erased⟩ := List.exists_of_eraseP inside
    (p := fun other => sameKey other.1 (timer.tnodes entry.data).id)
    (by simp only [keyed, sameKey, decide_true])
  have found : key ∈ timer.map := by
    rw [whole]
    exact List.mem_append_right _ (.head _)
  obtain ⟨other, member', rfl⟩ := List.mem_map.mp (agrees.map.mem_iff.mp found)
  obtain rfl := agrees.keys other member' entry mem same
  rw [swHashMapDelInt, erased]
  have all := agrees.map
  rw [whole] at all
  refine (List.perm_cons (timer.keyed other)).mp ?_
  refine List.perm_middle.symm.trans (all.trans ?_)
  exact (perm_filter mem agrees.session.distinct).map timer.keyed

structure Follows (timer : Timer) (plan : Plan) (entries : List (Entry TimerPtr)) : Prop where
  agrees : Agrees timer entries
  pending : plan.pending = entries.map fun entry => timer.timing entry.data
  given : plan.given = timer.nextTnode
  idle : plan.calling = none → timer.currentId = -1
  calling : ∀ tnode now, plan.calling = some (tnode, now) → ∃ entry ∈ entries,
    entry.data = tnode ∧ entry.node = timer.heap.nodes 1 ∧
      timer.currentId = (timer.tnodes tnode).id ∧ (entry.priority : Int) ≤ now

/-- A new timer is not due before it is added, the times are in range, the heap is not too
large, and the map has no key that compares equal; a timer that is deleted is there. -/
def Fits (timer : Timer) (now : Int) : TimerCall → Prop
  | .add msec _ =>
    0 ≤ msec ∧ msec < 2 ^ 31 ∧ now + msec < 2 ^ 63 ∧ timer.heap.num < 2 ^ 31 ∧
      ∀ entry ∈ timer.map, sameKey entry.1 timer.newId = false
  | .del tnode => swHashMapFindInt timer.map (timer.tnodes tnode).id = some tnode

instance (timer : Timer) (now : Int) : (call : TimerCall) → Decidable (Fits timer now call)
  | .add _ _ => inferInstanceAs (Decidable (_ ∧ _))
  | .del _ => inferInstanceAs (Decidable (_ = _))

theorem asUInt64_eq {x : Int} (low : 0 ≤ x) (high : x < 2 ^ 64) : (asUInt64 x : Int) = x := by
  unfold asUInt64
  omega

theorem newId_pos (agrees : Agrees timer entries) : 0 < timer.newId := by
  have nextId := agrees.nextId
  unfold newId
  split <;> omega

def withNode (timer : Timer) (now msec : Int) (interval : Bool) (size : Nat) : Timer :=
  let armed :=
    if timer.nextMsec < 0 ∨ msec < timer.nextMsec then
      { timer with system := timer.system.set now msec, nextMsec := msec }
    else timer
  { armed with
    nextId := if timer.nextId < 0 then 2 else asLong (timer.nextId + 1)
    num := timer.num + 1
    heap := Heap.pushNode { timer.heap with size } (asUInt64 (now + msec)) timer.nextTnode
    tnodes := update timer.tnodes timer.nextTnode
      ⟨timer.heap.nextPtr, now + msec, if interval then asUInt64 msec % 2 ^ 32 else 0,
        timer.newId, false⟩
    nextTnode := timer.nextTnode + 1
    map := (timer.newId, timer.nextTnode) :: timer.map }

theorem swTimerAdd_eq (agrees : Agrees timer entries) {now msec : Int} (interval : Bool)
    (time : 0 ≤ now) (few : timer.heap.num < 2 ^ 31) :
    ∃ size, timer.heap.num < size ∧ size < 2 ^ 32 ∧
      swTimerAdd timer now msec interval = (timer.withNode now msec interval size,
        [.added timer.nextTnode (now + msec) (if interval then asUInt64 msec % 2 ^ 32 else 0)]) := by
  have positive := agrees.size
  have fits : Session.Fits ⟨timer.heap, entries⟩
      (.push (asUInt64 (now + msec)) timer.nextTnode) := by
    by_cases room : timer.heap.num < timer.heap.size
    · exact .inl room
    · exact .inr ⟨positive, show timer.heap.size < 2 ^ 31 by omega⟩
  obtain ⟨size, room, width, pushed⟩ := Session.push_eq agrees.session _ _ fits
  have pushed : timer.heap.swHeapPush (asUInt64 (now + msec)) timer.nextTnode =
      (Heap.pushNode { timer.heap with size } (asUInt64 (now + msec)) timer.nextTnode,
        some timer.heap.nextPtr) := pushed
  refine ⟨size, room, width, ?_⟩
  rw [swTimerAdd, if_neg (by omega)]
  dsimp only
  rw [pushed]
  rfl

theorem agrees_withNode (agrees : Agrees timer entries) {now msec : Int} (interval : Bool)
    (time : 0 ≤ now) (fits : Fits timer now (.add msec interval)) {size : Nat}
    (room : timer.heap.num < size) (width : size < 2 ^ 32) :
    Agrees (timer.withNode now msec interval size)
      (entries ++ [⟨timer.heap.nextPtr, asUInt64 (now + msec), timer.nextTnode⟩]) := by
  obtain ⟨nonneg, range, limit, few, fresh⟩ := fits
  have older : ∀ entry ∈ entries, (timer.withNode now msec interval size).tnodes entry.data =
      timer.tnodes entry.data := fun entry mem =>
    update_of_ne (Nat.ne_of_lt (agrees.allocated entry mem)) _ _
  have newer : (timer.withNode now msec interval size).tnodes timer.nextTnode =
      ⟨timer.heap.nextPtr, now + msec, if interval then asUInt64 msec % 2 ^ 32 else 0,
        timer.newId, false⟩ := update_self _ _ _
  have current : (timer.withNode now msec interval size).currentId = timer.currentId := by
    unfold withNode
    split <;> rfl
  have each {motive : Entry TimerPtr → Prop} (old : ∀ entry ∈ entries, motive entry)
      (new : motive ⟨timer.heap.nextPtr, asUInt64 (now + msec), timer.nextTnode⟩) :
      ∀ entry ∈ entries ++ [⟨timer.heap.nextPtr, asUInt64 (now + msec), timer.nextTnode⟩],
        motive entry := by
    intro entry mem
    rcases List.mem_append.mp mem with first | second
    · exact old entry first
    · rw [List.mem_singleton.mp second]
      exact new
  have apart : ∀ entry ∈ entries, sameKey (timer.tnodes entry.data).id timer.newId = false :=
    fun entry mem => fresh (timer.keyed entry)
      (agrees.map.mem_iff.mpr (List.mem_map_of_mem mem))
  have nextId := agrees.nextId
  have exec : (asUInt64 (now + msec) : Int) = now + msec := asUInt64_eq (by omega) (by omega)
  obtain ⟨slots, pushed⟩ := Heap.reordered_bubbleUp (Heap.append { timer.heap with size }
    (asUInt64 (now + msec)) timer.nextTnode) timer.heap.num
  have heap : (timer.withNode now msec interval size).heap = (Heap.append { timer.heap with size }
      (asUInt64 (now + msec)) timer.nextTnode).withSlots slots := pushed
  exact {
    session := agrees.session.append room width _ _
    type := by
      rw [heap]
      exact agrees.type
    size := by
      rw [heap]
      exact Nat.lt_of_le_of_lt (Nat.zero_le _) room
    small := by
      rw [heap]
      change (timer.heap.num + 1) % 2 ^ 32 ≤ 2 ^ 31
      omega
    node := each (fun entry mem => (older entry mem).symm ▸ agrees.node entry mem)
      (by rw [newer])
    exec := each (fun entry mem => (older entry mem).symm ▸ agrees.exec entry mem)
      (by rw [newer]; exact exec.symm)
    interval := each (fun entry mem => (older entry mem).symm ▸ agrees.interval entry mem)
      (by rw [newer]; dsimp only; split <;> omega)
    id := each (fun entry mem => (older entry mem).symm ▸ agrees.id entry mem)
      (by rw [newer]; exact newId_pos agrees)
    keys := by
      refine each (fun entry mem => each (fun other member' same => ?_) fun same => ?_)
        (each (fun other member' same => ?_) fun _ => rfl)
      · rw [older entry mem, older other member'] at same
        exact agrees.keys entry mem other member' same
      · rw [older entry mem, newer, apart entry mem] at same
        exact absurd same Bool.false_ne_true
      · have backwards : sameKey (timer.tnodes other.data).id timer.newId = true := by
          rw [older other member', newer] at same
          simpa only [sameKey, decide_eq_true_eq, eq_comm] using same
        rw [apart other member'] at backwards
        exact absurd backwards Bool.false_ne_true
    map := by
      have same : entries.map (timer.withNode now msec interval size).keyed =
          entries.map timer.keyed := List.map_congr_left fun entry mem => by
        simp only [keyed, older entry mem]
      rw [List.map_append, same, List.map_singleton, keyed, newer]
      exact (agrees.map.cons _).trans (List.perm_append_singleton _ _).symm
    allocated := each (fun entry mem => Nat.lt_succ_of_lt (agrees.allocated entry mem))
      (Nat.lt_succ_self _)
    num := by
      change timer.num + 1 = _
      rw [agrees.num, List.length_append, List.length_singleton]
      rfl
    nextId := by
      change (if timer.nextId < 0 then 2 else asLong (timer.nextId + 1)) ≠ 0 ∧
        (if timer.nextId < 0 then 2 else asLong (timer.nextId + 1)) < 2 ^ 63
      unfold asLong
      split <;> omega
    removed := each (fun entry mem => by
        rw [older entry mem, current]
        exact agrees.removed entry mem)
      (by rw [newer]; exact fun impossible => absurd impossible Bool.false_ne_true) }

theorem Agrees.lt_num (agrees : Agrees timer entries) {entry : Entry TimerPtr}
    (mem : entry ∈ entries) : 1 < timer.heap.num := by
  have inside := agrees.session.good.position ⟨entry, mem, rfl⟩
  have low : 1 ≤ timer.heap.position entry.node := inside.1
  have high : timer.heap.position entry.node < timer.heap.num := inside.2.1
  omega

theorem add_follows (follows : Follows timer plan entries) {now msec : Int} {interval : Bool}
    (time : 0 ≤ now) (fits : Fits timer now (.add msec interval))
    (later : ∀ tnode start, plan.calling = some (tnode, start) → start ≤ now) :
    ∃ plan' entries', Accepts plan (swTimerAdd timer now msec interval).2 plan' ∧
      Follows (swTimerAdd timer now msec interval).1 plan' entries' ∧
      plan'.calling = plan.calling := by
  obtain ⟨agrees, pending, given, idle, calling⟩ := follows
  have agrees' (size : Nat) := @agrees_withNode timer entries agrees now msec interval time fits size
  obtain ⟨nonneg, range, limit, few, -⟩ := fits
  obtain ⟨size, room, width, added⟩ := swTimerAdd_eq agrees interval time few
  have agrees' := agrees' size room width
  have older : ∀ entry ∈ entries, (timer.withNode now msec interval size).tnodes entry.data =
      timer.tnodes entry.data := fun entry mem =>
    update_of_ne (Nat.ne_of_lt (agrees.allocated entry mem)) _ _
  have current : (timer.withNode now msec interval size).currentId = timer.currentId := by
    unfold withNode
    split <;> rfl
  rw [added, ← given]
  refine ⟨_, _, .single .added, ⟨agrees', ?_, congrArg Nat.succ given, ?_, ?_⟩, rfl⟩
  · have same : entries.map (fun entry =>
          (timer.withNode now msec interval size).timing entry.data) =
        entries.map fun entry => timer.timing entry.data :=
      List.map_congr_left fun entry mem => by rw [timing, timing, older entry mem]
    have newer : (timer.withNode now msec interval size).tnodes timer.nextTnode =
        ⟨timer.heap.nextPtr, now + msec, if interval then asUInt64 msec % 2 ^ 32 else 0,
          timer.newId, false⟩ := update_self _ _ _
    rw [List.map_append, same, List.map_singleton, timing, newer]
    simp only [pending, given]
  · rw [current]
    exact idle
  · intro tnode start called
    obtain ⟨entry, mem, data, first, id, due⟩ := calling tnode start called
    have exec : (asUInt64 (now + msec) : Int) = now + msec := asUInt64_eq (by omega) (by omega)
    have root : (timer.withNode now msec interval size).heap.nodes 1 = timer.heap.nodes 1 := by
      refine @Heap.nodes_one_pushNode _ { timer.heap with size } (agrees.lt_num mem) _ _ ?_ ?_
      · change timer.heap.nodes 1 ≠ timer.heap.nextPtr
        rw [← first]
        exact Nat.ne_of_lt (agrees.session.good.allocated _ ⟨entry, mem, rfl⟩)
      · change swHeapCompare timer.heap.type (timer.heap.priority (timer.heap.nodes 1)) _ = false
        have priority : timer.heap.priority entry.node = entry.priority :=
          (agrees.session.kept entry mem).1
        have start := later tnode start called
        rw [agrees.type, ← first, priority, swHeapCompare, decide_eq_false_iff_not]
        omega
    refine ⟨entry, List.mem_append_left _ mem, data, first.trans root.symm, ?_, due⟩
    rw [current, ← data, older entry mem, data]
    exact id

theorem Agrees.node_inj (agrees : Agrees timer entries) {entry other : Entry TimerPtr}
    (mem : entry ∈ entries) (member' : other ∈ entries) (same : entry.node = other.node) :
    entry = other := List.inj_on_of_nodup_map agrees.session.distinct mem member' same

theorem Agrees.mark (agrees : Agrees timer entries) {tnode : TimerPtr}
    (current : (timer.tnodes tnode).id = timer.currentId) :
    Agrees { timer with
      tnodes := update timer.tnodes tnode { timer.tnodes tnode with remove := true } }
      entries := by
  have same : ∀ data, ∃ remove, update timer.tnodes tnode
      { timer.tnodes tnode with remove := true } data = { timer.tnodes data with remove := remove } ∧
      (remove = true → data = tnode ∨ (timer.tnodes data).remove = true) := by
    intro data
    by_cases here : data = tnode
    · subst here
      exact ⟨true, update_self _ _ _, fun _ => .inl rfl⟩
    · exact ⟨_, update_of_ne here _ _, fun removed => .inr removed⟩
  have id : ∀ data, (update timer.tnodes tnode
      { timer.tnodes tnode with remove := true } data).id = (timer.tnodes data).id := by
    intro data
    obtain ⟨remove, eq, -⟩ := same data
    rw [eq]
  exact {
    session := agrees.session
    type := agrees.type
    size := agrees.size
    small := agrees.small
    node := fun entry mem => by
      obtain ⟨remove, eq, -⟩ := same entry.data
      simp only [eq]
      exact agrees.node entry mem
    exec := fun entry mem => by
      obtain ⟨remove, eq, -⟩ := same entry.data
      simp only [eq]
      exact agrees.exec entry mem
    interval := fun entry mem => by
      obtain ⟨remove, eq, -⟩ := same entry.data
      simp only [eq]
      exact agrees.interval entry mem
    id := fun entry mem => by
      simp only [id]
      exact agrees.id entry mem
    keys := fun entry mem other member' => by
      simp only [id]
      exact agrees.keys entry mem other member'
    map := by
      have keyed : entries.map (keyed { timer with
          tnodes := update timer.tnodes tnode { timer.tnodes tnode with remove := true } }) =
          entries.map timer.keyed := List.map_congr_left fun entry _ => by
        simp only [Timer.keyed, id]
      rw [keyed]
      exact agrees.map
    allocated := agrees.allocated
    num := agrees.num
    nextId := agrees.nextId
    removed := fun entry mem removed => by
      simp only [id]
      obtain ⟨remove, eq, old⟩ := same entry.data
      simp only [eq] at removed
      rcases old removed with here | old
      · rw [here]
        exact current
      · exact agrees.removed entry mem old }

theorem Agrees.without (agrees : Agrees timer entries) {entry : Entry TimerPtr}
    (mem : entry ∈ entries) {heap : Heap TimerPtr}
    (reordered : ∃ pos, Heap.Reordered (timer.heap.moveLast pos) heap)
    (session : Session.Agrees ⟨heap, entries.filter fun other => other.node ≠ entry.node⟩) :
    Agrees { timer with
      map := swHashMapDelInt timer.map (timer.tnodes entry.data).id
      heap := heap
      num := timer.num - 1 } (entries.filter fun other => other.node ≠ entry.node) := by
  obtain ⟨pos, slots, rfl⟩ := reordered
  have inside : ∀ other ∈ entries.filter (fun other => other.node ≠ entry.node),
      other ∈ entries := fun other member' => List.mem_of_mem_filter member'
  exact {
    session := session
    type := agrees.type
    size := agrees.size
    small := (Nat.sub_le _ _).trans agrees.small
    node := fun other member' => agrees.node other (inside other member')
    exec := fun other member' => agrees.exec other (inside other member')
    interval := fun other member' => agrees.interval other (inside other member')
    id := fun other member' => agrees.id other (inside other member')
    keys := fun other member' another member'' =>
      agrees.keys other (inside other member') another (inside another member'')
    map := agrees.map_del mem
    allocated := fun other member' => agrees.allocated other (inside other member')
    num := by
      have length := (perm_filter mem agrees.session.distinct).length_eq
      have num := agrees.num
      rw [List.length_cons] at length
      simp only
      omega
    nextId := agrees.nextId
    removed := fun other member' => agrees.removed other (inside other member') }

theorem Agrees.timing_filter (agrees : Agrees timer entries) {entry : Entry TimerPtr}
    (mem : entry ∈ entries) : (entries.map fun other => timer.timing other.data).filter
        (fun other => other.tnode ≠ entry.data) =
      (entries.filter fun other => other.node ≠ entry.node).map
        fun other => timer.timing other.data := by
  rw [List.filter_map]
  congr 1
  refine List.filter_congr fun other member' => ?_
  simp only [Function.comp_apply, timing]
  refine decide_eq_decide.mpr (not_congr ⟨fun same => ?_, fun same => ?_⟩)
  · rw [agrees.data_inj member' mem same]
  · rw [agrees.node_inj member' mem same]

theorem del_follows (follows : Follows timer plan entries) {now : Int} {tnode : TimerPtr}
    (fits : Fits timer now (.del tnode)) :
    ∃ plan' entries', Accepts plan (swTimerDel timer tnode).2 plan' ∧
      Follows (swTimerDel timer tnode).1 plan' entries' ∧ plan'.calling = plan.calling := by
  obtain ⟨agrees, pending, given, idle, calling⟩ := follows
  obtain ⟨entry, mem, rfl⟩ := agrees.of_find fits
  have planned : timer.timing entry.data ∈ plan.pending := by
    rw [pending]
    exact List.mem_map_of_mem mem
  rw [swTimerDel]
  by_cases removed : (timer.tnodes entry.data).remove = true
  · simp only [removed, if_true]
    exact ⟨plan, entries, .nil, ⟨agrees, pending, given, idle, calling⟩, rfl⟩
  · simp only [removed, Bool.false_eq_true, if_false]
    have deleted : (timer.timing entry.data).deleted = false := Bool.eq_false_iff.mpr removed
    by_cases current : 0 < timer.currentId ∧ (timer.tnodes entry.data).id = timer.currentId
    · obtain ⟨running, same⟩ := current
      have notIdle : plan.calling ≠ none := fun none => by
        have := idle none
        omega
      obtain ⟨⟨tnode, start⟩, called⟩ := Option.ne_none_iff_exists'.mp notIdle
      obtain ⟨first, member', rfl, root, id, due⟩ := calling tnode start called
      obtain rfl := agrees.keys entry mem first member' (by
        rw [sameKey, same, id, decide_eq_true_eq])
      rw [if_pos ⟨running, same⟩]
      refine ⟨_, entries, .single (.marked planned deleted called),
        ⟨agrees.mark same, ?_, given, idle, ?_⟩, rfl⟩
      · simp only [pending, List.map_map]
        refine List.map_congr_left fun other member'' => ?_
        by_cases here : other.data = entry.data
        · simp only [Function.comp_apply, timing, here, if_true, update_self]
        · simp only [Function.comp_apply, timing, here, if_false, update_of_ne here]
      · intro tnode' start' called'
        obtain ⟨rfl, rfl⟩ := Prod.mk.inj (Option.some.inj (called.symm.trans called'))
        refine ⟨entry, mem, rfl, root, ?_, due⟩
        simp only [update_self, id]
    · rw [if_neg current]
      have found : ¬ swHashMapFindInt timer.map (timer.tnodes entry.data).id = none := by
        rw [agrees.find mem]
        exact Option.some_ne_none _
      have held : Session.Live ⟨timer.heap, entries⟩ entry.node := ⟨entry, mem, rfl⟩
      have apart : ∀ tnode start, plan.calling = some (tnode, start) → tnode ≠ entry.data := by
        rintro tnode start called rfl
        obtain ⟨-, -, -, -, id, -⟩ := calling _ start called
        exact current ⟨id ▸ agrees.id entry mem, id.symm⟩
      have session : Session.Agrees ⟨timer.heap.swHeapRemove entry.node,
          entries.filter fun other => other.node ≠ entry.node⟩ :=
        @Session.Agrees.next _ ⟨timer.heap, entries⟩ (.remove entry.node) agrees.session held
          agrees.small
      rw [if_neg found, agrees.node entry mem]
      refine ⟨_, _, .single (.deleted planned deleted fun start called => apart _ start called rfl),
        ⟨agrees.without mem ⟨_, Heap.reordered_remove _ _⟩ session, ?_, given, idle, ?_⟩, rfl⟩
      · simp only [pending]
        exact agrees.timing_filter mem
      · intro tnode start called
        obtain ⟨first, member', rfl, root, id, due⟩ := calling tnode start called
        have different : first.node ≠ entry.node := fun same =>
          apart _ start called (congrArg Entry.data (agrees.node_inj member' mem same))
        have kept : (timer.heap.swHeapRemove entry.node).nodes 1 = timer.heap.nodes 1 :=
          Heap.nodes_one_remove agrees.session.good held agrees.small
            fun same => different (root.trans same.symm)
        exact ⟨first, List.mem_filter.mpr ⟨member', decide_eq_true different⟩, rfl,
          root.trans kept.symm, id, due⟩

theorem call_kept (timer : Timer) (now : Int) (call : TimerCall) {tnode : TimerPtr}
    (old : tnode < timer.nextTnode) :
    ((timer.call now call).1.tnodes tnode).heapNode = (timer.tnodes tnode).heapNode ∧
      ((timer.call now call).1.tnodes tnode).id = (timer.tnodes tnode).id ∧
      tnode < (timer.call now call).1.nextTnode := by
  cases call with
  | add msec interval =>
    rw [Timer.call, swTimerAdd]
    split
    · exact ⟨rfl, rfl, old⟩
    · dsimp only
      split
      · split <;> exact ⟨rfl, rfl, old⟩
      · have other := update_of_ne (Nat.ne_of_lt old)
          ⟨‹NodePtr›, now + msec, if interval then asUInt64 msec % 2 ^ 32 else 0, timer.newId,
            false⟩ timer.tnodes
        exact ⟨congrArg TimerNode.heapNode other, congrArg TimerNode.id other,
          Nat.lt_succ_of_lt old⟩
  | del deleted =>
    rw [Timer.call, swTimerDel]
    split
    · exact ⟨rfl, rfl, old⟩
    · split
      · by_cases here : tnode = deleted
        · subst here
          refine ⟨?_, ?_, old⟩
          · simp only [update_self]
          · simp only [update_self]
        · refine ⟨?_, ?_, old⟩
          · simp only [update_of_ne here]
          · simp only [update_of_ne here]
      · split <;> exact ⟨rfl, rfl, old⟩

theorem call_follows (follows : Follows timer plan entries) {now : Int} {call : TimerCall}
    (time : 0 ≤ now) (fits : Fits timer now call)
    (later : ∀ tnode start, plan.calling = some (tnode, start) → start ≤ now) :
    ∃ plan' entries', Accepts plan (timer.call now call).2 plan' ∧
      Follows (timer.call now call).1 plan' entries' ∧ plan'.calling = plan.calling := by
  cases call with
  | add msec interval => exact add_follows follows time fits later
  | del tnode => exact del_follows follows fits

end Timer

end PhpExts.Swoole
