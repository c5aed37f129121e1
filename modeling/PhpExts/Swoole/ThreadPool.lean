import PhpExts.Swoole.RingQueue
import Mathlib.Data.List.Perm.Basic

/-!
# The thread pool

`swThreadPool_dispatch` pushes a task under the lock of a condition, and counts and notifies without
it. The threads of `swThreadPool_loop` wait for the condition if `task_num` is zero, under the lock.
Every step of these is one of the model; the others may come between. A signal wakes one thread that
waits, and a thread may also wake up without one, as POSIX allows.
-/

namespace PhpExts.Swoole.ThreadPool

open RingQueue List

variable {τ : Type}

/-- Where a thread is in `swThreadPool_loop`. -/
inductive Worker (τ : Type) where
  | outside
  | called
  | entered
  | starved
  | waiting
  | woken
  | ready
  | popped (task : τ)
  | counted (task : τ)
  | exited

/-- Where a thread is in `swThreadPool_dispatch`. -/
inductive Caller (τ : Type) where
  | outside
  | called (task : τ)
  | entered (task : τ)
  | pushed
  | counted

/-- What the threads share of `swThreadPool`, and the tasks that have been accepted, popped and
performed. -/
structure Shared (τ : Type) where
  queue : SwRingQueue τ
  locked : Bool
  running : Bool
  shutdown : Bool
  taskNum : Nat
  accepted : List τ
  taken : List τ
  performed : List τ

/-- The next step of `swThreadPool_loop`, if it is not for the lock or the condition to come. -/
def Worker.step : Worker τ → Shared τ → Option (Worker τ × Shared τ)
  | .outside, s => if s.running then some (.called, s) else some (.exited, s)
  | .called, s => if s.locked then none else some (.entered, { s with locked := true })
  | .entered, s =>
    if s.shutdown then some (.exited, { s with locked := false })
    else if s.taskNum = 0 then some (.starved, s)
    else some (.ready, s)
  | .starved, s => some (.waiting, { s with locked := false })
  | .woken, s => if s.locked then none else some (.ready, { s with locked := true })
  | .ready, s =>
    match swRingQueuePop s.queue with
    | (none, queue) => some (.outside, { s with queue, locked := false })
    | (some task, queue) =>
      some (.popped task, { s with queue, locked := false, taken := s.taken ++ [task] })
  | .popped task, s =>
    some (.counted task, { s with taskNum := (s.taskNum + 0xFFFFFFFF) % 0x100000000 })
  | .counted task, s => some (.outside, { s with performed := s.performed ++ [task] })
  | .waiting, _ | .exited, _ => none

/-- The next step of `swThreadPool_dispatch` up to the signal. -/
def Caller.step : Caller τ → Shared τ → Option (Caller τ × Shared τ)
  | .called task, s => if s.locked then none else some (.entered task, { s with locked := true })
  | .entered task, s =>
    match swRingQueuePush s.queue task with
    | (false, queue) => some (.outside, { s with queue, locked := false })
    | (true, queue) =>
      some (.pushed, { s with queue, locked := false, accepted := s.accepted ++ [task] })
  | .pushed, s => some (.counted, { s with taskNum := (s.taskNum + 1) % 0x100000000 })
  | .outside, _ | .counted, _ => none

structure SwThreadPool (τ : Type) where
  workers : List (Worker τ)
  callers : List (Caller τ)
  shared : Shared τ

/-- The steps of the threads; `true` is for those that end a call with its signal. -/
inductive Step : Bool → SwThreadPool τ → SwThreadPool τ → Prop where
  | work {front back callers s w w' s'} (step : Worker.step w s = some (w', s')) :
    Step false ⟨front ++ w :: back, callers, s⟩ ⟨front ++ w' :: back, callers, s'⟩
  | call {workers front back s} (task : τ) : Step false
      ⟨workers, front ++ .outside :: back, s⟩ ⟨workers, front ++ .called task :: back, s⟩
  | dispatch {workers front back s c c' s'} (step : Caller.step c s = some (c', s')) :
    Step false ⟨workers, front ++ c :: back, s⟩ ⟨workers, front ++ c' :: back, s'⟩
  | notify {front back front' back' s} : Step true
      ⟨front ++ .waiting :: back, front' ++ .counted :: back', s⟩
      ⟨front ++ .woken :: back, front' ++ .outside :: back', s⟩
  | notifyNobody {workers front back s} (nobody : .waiting ∉ workers) : Step true
      ⟨workers, front ++ .counted :: back, s⟩ ⟨workers, front ++ .outside :: back, s⟩
  | wake {front back callers s} : Step false
      ⟨front ++ .waiting :: back, callers, s⟩ ⟨front ++ .woken :: back, callers, s⟩
  | free {workers callers s} : Step false
      ⟨workers, callers, s⟩ ⟨workers, callers, { s with shutdown := true }⟩
  | stop {workers callers s} : Step false
      ⟨workers, callers, s⟩ ⟨workers, callers, { s with running := false }⟩

/-- The states of a pool with some threads and callers, where calls signal in the states that are
allowed. -/
inductive Run (null : τ) (size threads callers : Nat) (allowed : SwThreadPool τ → Prop) :
    SwThreadPool τ → Prop where
  | init : Run null size threads callers allowed ⟨.replicate threads .outside,
      .replicate callers .outside, ⟨swRingQueueInit null size, false, true, false, 0, [], [], []⟩⟩
  | step {b pool pool'} (run : Run null size threads callers allowed pool)
      (step : Step b pool pool') (signals : b = true → allowed pool) :
      Run null size threads callers allowed pool'

def Worker.holds : Worker τ → Bool
  | .entered | .starved | .ready => true
  | _ => false

def Caller.holds : Caller τ → Bool
  | .entered _ => true
  | _ => false

def Worker.hand : Worker τ → Option τ
  | .popped task | .counted task => some task
  | _ => none

def Worker.isPopped : Worker τ → Bool
  | .popped _ => true
  | _ => false

def Caller.isPushed : Caller τ → Bool
  | .pushed => true
  | _ => false

/-- The lock has one holder, the tasks leave the queue in their order and each is performed once,
and the number of tasks is right but for the threads that have still to count. -/
structure Accounted (size : Nat) (pool : SwThreadPool τ) (items : List τ) : Prop where
  queue : Holds pool.shared.queue items
  sizeIs : pool.shared.queue.size = size
  lock : pool.workers.countP Worker.holds + pool.callers.countP Caller.holds =
    pool.shared.locked.toNat
  order : pool.shared.accepted = pool.shared.taken ++ items
  once : pool.shared.taken.Perm (pool.shared.performed ++ pool.workers.filterMap Worker.hand)
  count : (pool.shared.taskNum + pool.callers.countP Caller.isPushed) % 0x100000000 =
    (items.length + pool.workers.countP Worker.isPopped) % 0x100000000

section

variable {size : Nat} {items items' : List τ} {workers front back : List (Worker τ)}
  {callers front' back' : List (Caller τ)} {s s' : Shared τ} {w w' : Worker τ} {c c' : Caller τ}

theorem countP_middle {α : Type} (p : α → Bool) (front back : List α) (a : α) :
    (front ++ a :: back).countP p = (front ++ back).countP p + (p a).toNat := by
  rw [perm_middle.countP_eq, countP_cons]
  cases p a <;> rfl

theorem hands_middle (front back : List (Worker τ)) (w : Worker τ) :
    ((front ++ w :: back).filterMap Worker.hand).Perm
      (w.hand.toList ++ (front ++ back).filterMap Worker.hand) := by
  refine (perm_middle.filterMap _).trans ?_
  rw [filterMap_cons]
  cases w.hand <;> exact .refl _

theorem Accounted.locked (accounted : Accounted size ⟨workers, callers, s⟩ items)
    (holder : (∃ w ∈ workers, w.holds) ∨ ∃ c ∈ callers, c.holds) : s.locked = true := by
  have lock : workers.countP Worker.holds + callers.countP Caller.holds = s.locked.toNat :=
    accounted.lock
  rw [← countP_pos_iff, ← countP_pos_iff] at holder
  cases locked : s.locked with
  | false =>
    rw [locked, Bool.toNat_false] at lock
    omega
  | true => rfl

theorem Accounted.move (accounted : Accounted size ⟨front ++ w :: back, callers, s⟩ items)
    (queue : Holds s'.queue items') (sizeIs : s'.queue.size = size)
    (lock : w'.holds.toNat + s.locked.toNat = w.holds.toNat + s'.locked.toNat)
    (order : s'.accepted = s'.taken ++ items')
    (once : ∀ rest, s.taken.Perm (s.performed ++ (w.hand.toList ++ rest)) →
      s'.taken.Perm (s'.performed ++ (w'.hand.toList ++ rest)))
    (count : ∀ n m, (s.taskNum + n) % 0x100000000 =
        (items.length + (m + w.isPopped.toNat)) % 0x100000000 →
      (s'.taskNum + n) % 0x100000000 = (items'.length + (m + w'.isPopped.toNat)) % 0x100000000) :
    Accounted size ⟨front ++ w' :: back, callers, s'⟩ items' := by
  refine ⟨queue, sizeIs, ?_, order, ?_, ?_⟩
  · have before := accounted.lock
    rw [countP_middle] at before ⊢
    dsimp only at before ⊢
    omega
  · refine (once _ ?_).trans ((hands_middle _ _ _).symm.append_left _)
    exact accounted.once.trans ((hands_middle _ _ _).append_left _)
  · have before := accounted.count
    rw [countP_middle] at before ⊢
    exact count _ _ before

theorem Accounted.wake (accounted : Accounted size ⟨front ++ .waiting :: back, callers, s⟩ items) :
    Accounted size ⟨front ++ .woken :: back, callers, s⟩ items :=
  accounted.move accounted.queue accounted.sizeIs rfl accounted.order (fun _ => id) fun _ _ => id

theorem Accounted.moveCaller
    (accounted : Accounted size ⟨workers, front' ++ c :: back', s⟩ items)
    (queue : Holds s'.queue items') (sizeIs : s'.queue.size = size)
    (lock : c'.holds.toNat + s.locked.toNat = c.holds.toNat + s'.locked.toNat)
    (order : s'.accepted = s'.taken ++ items')
    (same : s'.taken = s.taken ∧ s'.performed = s.performed)
    (count : ∀ n m, (s.taskNum + (n + c.isPushed.toNat)) % 0x100000000 =
        (items.length + m) % 0x100000000 →
      (s'.taskNum + (n + c'.isPushed.toNat)) % 0x100000000 =
        (items'.length + m) % 0x100000000) :
    Accounted size ⟨workers, front' ++ c' :: back', s'⟩ items' := by
  refine ⟨queue, sizeIs, ?_, order, ?_, ?_⟩
  · have before := accounted.lock
    rw [countP_middle] at before ⊢
    dsimp only at before ⊢
    omega
  · rw [same.1, same.2]
    exact accounted.once
  · have before := accounted.count
    rw [countP_middle] at before ⊢
    exact count _ _ before

theorem Accounted.work (accounted : Accounted size ⟨front ++ w :: back, callers, s⟩ items)
    (step : w.step s = some (w', s')) :
    ∃ items', Accounted size ⟨front ++ w' :: back, callers, s'⟩ items' := by
  have queue : Holds s.queue items := accounted.queue
  have sizeIs : s.queue.size = size := accounted.sizeIs
  have order : s.accepted = s.taken ++ items := accounted.order
  have locked (holds : w.holds = true) := accounted.locked (.inl ⟨w, by simp, holds⟩)
  cases w with
  | outside =>
    simp only [Worker.step] at step
    split_ifs at step
    all_goals
      cases step
      exact ⟨_, accounted.move queue sizeIs rfl order (fun _ => id) fun _ _ => id⟩
  | called | woken =>
    simp only [Worker.step] at step
    split_ifs at step with held
    cases step
    exact ⟨_, accounted.move queue sizeIs (by simp [Worker.holds, held]) order (fun _ => id)
      fun _ _ => id⟩
  | entered =>
    simp only [Worker.step] at step
    split_ifs at step
    all_goals
      cases step
      exact ⟨_, accounted.move queue sizeIs (by simp [Worker.holds, locked rfl]) order
        (fun _ => id) fun _ _ => id⟩
  | starved =>
    cases step
    exact ⟨_, accounted.move queue sizeIs (by simp [Worker.holds, locked rfl]) order
      (fun _ => id) fun _ _ => id⟩
  | ready =>
    have popped := queue.pop
    have size' := size_pop s.queue
    simp only [Worker.step] at step
    generalize swRingQueuePop s.queue = result at popped size' step
    obtain ⟨task, queue'⟩ := result
    obtain ⟨rfl, holds⟩ := popped
    cases items with
    | nil =>
      cases step
      exact ⟨_, accounted.move holds (size'.trans sizeIs) (by simp [Worker.holds, locked rfl])
        order (fun _ => id) fun _ _ => id⟩
    | cons task items =>
      cases step
      refine ⟨items, accounted.move holds (size'.trans sizeIs)
        (by simp [Worker.holds, locked rfl]) (by simp [order]) (fun rest once => ?_)
        fun n m count => ?_⟩
      · refine (once.append_right [task]).trans ?_
        rw [append_assoc]
        exact (perm_append_singleton task rest).append_left _
      · rw [count]
        simp only [length_cons, Worker.isPopped, Bool.toNat_false, Bool.toNat_true]
        omega
  | popped task =>
    cases step
    refine ⟨_, accounted.move queue sizeIs rfl order (fun _ => id) fun n m count => ?_⟩
    simp only [Worker.isPopped, Bool.toNat_false, Bool.toNat_true] at count ⊢
    omega
  | counted task =>
    cases step
    refine ⟨_, accounted.move queue sizeIs rfl order (fun rest once => ?_) fun _ _ => id⟩
    simpa [Worker.hand] using once
  | waiting | exited => cases step

theorem Accounted.dispatch (accounted : Accounted size ⟨workers, front' ++ c :: back', s⟩ items)
    (step : c.step s = some (c', s')) :
    ∃ items', Accounted size ⟨workers, front' ++ c' :: back', s'⟩ items' := by
  have queue : Holds s.queue items := accounted.queue
  have sizeIs : s.queue.size = size := accounted.sizeIs
  have order : s.accepted = s.taken ++ items := accounted.order
  have locked (holds : c.holds = true) := accounted.locked (.inr ⟨c, by simp, holds⟩)
  cases c with
  | called task =>
    simp only [Caller.step] at step
    split_ifs at step with held
    cases step
    exact ⟨_, accounted.moveCaller queue sizeIs (by simp [Caller.holds, held]) order ⟨rfl, rfl⟩
      fun _ _ => id⟩
  | entered task =>
    have pushed := queue.push task
    have size' := size_push s.queue task
    simp only [Caller.step] at step
    generalize swRingQueuePush s.queue task = result at pushed size' step
    obtain ⟨done, queue'⟩ := result
    obtain ⟨rfl, holds⟩ := pushed
    by_cases room : items.length < s.queue.size
    · rw [decide_eq_true room] at step
      cases step
      rw [if_pos room] at holds
      refine ⟨_, accounted.moveCaller holds (size'.trans sizeIs)
        (by simp [Caller.holds, locked rfl]) (by simp [order]) ⟨rfl, rfl⟩ fun n m count => ?_⟩
      simp only [Caller.isPushed, Bool.toNat_false, Bool.toNat_true, length_append,
        length_singleton] at count ⊢
      omega
    · rw [decide_eq_false room] at step
      cases step
      rw [if_neg room] at holds
      exact ⟨_, accounted.moveCaller holds (size'.trans sizeIs)
        (by simp [Caller.holds, locked rfl]) order ⟨rfl, rfl⟩ fun _ _ => id⟩
  | pushed =>
    cases step
    refine ⟨_, accounted.moveCaller queue sizeIs rfl order ⟨rfl, rfl⟩ fun n m count => ?_⟩
    simp only [Caller.isPushed, Bool.toNat_false, Bool.toNat_true] at count ⊢
    omega
  | outside | counted => cases step

theorem Accounted.step {b : Bool} {pool pool' : SwThreadPool τ}
    (accounted : Accounted size pool items) (step : Step b pool pool') :
    ∃ items', Accounted size pool' items' := by
  have ⟨queue, sizeIs, lock, order, once, count⟩ := accounted
  cases step with
  | work step => exact accounted.work step
  | call task =>
    exact ⟨_, accounted.moveCaller queue sizeIs rfl order ⟨rfl, rfl⟩ fun _ _ => id⟩
  | dispatch step => exact accounted.dispatch step
  | notify =>
    exact ⟨_, accounted.wake.moveCaller queue sizeIs rfl order ⟨rfl, rfl⟩ fun _ _ => id⟩
  | notifyNobody =>
    exact ⟨_, accounted.moveCaller queue sizeIs rfl order ⟨rfl, rfl⟩ fun _ _ => id⟩
  | wake => exact ⟨_, accounted.wake⟩
  | free | stop => exact ⟨_, queue, sizeIs, lock, order, once, count⟩

theorem Step.length_workers {b : Bool} {pool pool' : SwThreadPool τ} (step : Step b pool pool') :
    pool'.workers.length = pool.workers.length := by
  cases step <;> simp

end

section

variable {null : τ} {size threads callers : Nat} {allowed : SwThreadPool τ → Prop}
  {pool : SwThreadPool τ}

theorem Run.work {front back : List (Worker τ)} {others : List (Caller τ)} {w w' : Worker τ}
    {s s' : Shared τ}
    (run : Run null size threads callers allowed ⟨front ++ w :: back, others, s⟩)
    (step : w.step s = some (w', s')) :
    Run null size threads callers allowed ⟨front ++ w' :: back, others, s'⟩ :=
  run.step (.work step) (by simp)

theorem Run.dispatch {workers : List (Worker τ)} {front back : List (Caller τ)} {c c' : Caller τ}
    {s s' : Shared τ}
    (run : Run null size threads callers allowed ⟨workers, front ++ c :: back, s⟩)
    (step : c.step s = some (c', s')) :
    Run null size threads callers allowed ⟨workers, front ++ c' :: back, s'⟩ :=
  run.step (.dispatch step) (by simp)

theorem Run.accounted (positive : 0 < size) (run : Run null size threads callers allowed pool) :
    ∃ items, Accounted size pool items := by
  induction run with
  | init =>
    refine ⟨[], holds_init null positive, rfl, ?_, rfl, ?_, ?_⟩
    · simp [countP_replicate, Worker.holds, Caller.holds]
    · simp [filterMap_replicate, Worker.hand]
    · simp [countP_replicate, Worker.isPopped, Caller.isPushed]
  | step run step _ ih =>
    obtain ⟨items, accounted⟩ := ih
    exact accounted.step step

end

/-- The call has still to count or to signal. -/
def Caller.inFlight : Caller τ → Bool
  | .pushed | .counted => true
  | _ => false

/-- All threads wait, or one is about to. -/
def Idle (pool : SwThreadPool τ) : Prop :=
  (∀ w ∈ pool.workers, w = .waiting) ∨ .starved ∈ pool.workers

/-- All tasks have been taken, or a signal is to come. -/
def Awaited (pool : SwThreadPool τ) : Prop :=
  pool.shared.accepted = pool.shared.taken ∨ ∃ c ∈ pool.callers, c.inFlight

/-- Threads that wait have missed no task. -/
def Covered (pool : SwThreadPool τ) : Prop := Idle pool → Awaited pool

section

variable {size : Nat} {items : List τ} {workers front back : List (Worker τ)}
  {callers front' back' : List (Caller τ)} {s s' : Shared τ} {w w' : Worker τ} {c c' : Caller τ}

theorem starved_of_idle (idle : Idle ⟨front ++ w :: back, callers, s⟩) (awake : w ≠ .waiting)
    (fed : w ≠ .starved) : .starved ∈ front ++ back := by
  rcases idle with all | starved
  · exact absurd (all w (by simp)) awake
  · simpa [fed.symm] using starved

theorem Awaited.keep {workers' : List (Worker τ)} (awaited : Awaited ⟨workers, callers, s⟩)
    (same : s'.accepted = s.accepted ∧ s'.taken = s.taken) : Awaited ⟨workers', callers, s'⟩ :=
  awaited.imp (fun all => same.1.trans (all.trans same.2.symm)) id

theorem Awaited.replace (awaited : Awaited ⟨workers, front' ++ c :: back', s⟩)
    (landed : c.inFlight = false) (same : s'.accepted = s.accepted ∧ s'.taken = s.taken) :
    Awaited ⟨workers, front' ++ c' :: back', s'⟩ := by
  refine awaited.imp (fun all => same.1.trans (all.trans same.2.symm)) ?_
  rintro ⟨d, mem, flies⟩
  have other : d ≠ c := by
    rintro rfl
    simp [landed] at flies
  have kept : d ∈ front' ++ back' := by simpa [other] using mem
  exact ⟨d, perm_middle.mem_iff.mpr (mem_cons_of_mem _ kept), flies⟩

/-- A thread that counts no task has missed none but those whose calls have still to count. -/
theorem Accounted.awaited (accounted : Accounted size ⟨workers, callers, s⟩ items)
    (few : size + workers.length ≤ 0xFFFFFFFF) (none_counted : s.taskNum = 0) :
    Awaited ⟨workers, callers, s⟩ := by
  have count := accounted.count
  have room := accounted.queue.room
  rw [accounted.sizeIs] at room
  have popped : workers.countP Worker.isPopped ≤ workers.length := countP_le_length
  cases items with
  | nil => exact .inl (by simpa using accounted.order)
  | cons task items =>
    simp only [none_counted, length_cons] at count room
    have pushed : 0 < callers.countP Caller.isPushed := by omega
    obtain ⟨c, mem, isPushed⟩ := countP_pos_iff.mp pushed
    cases c with
    | pushed => exact .inr ⟨_, mem, rfl⟩
    | _ => cases isPushed

theorem Covered.work (covered : Covered ⟨front ++ w :: back, callers, s⟩)
    (few : size + (front ++ w :: back).length ≤ 0xFFFFFFFF)
    (accounted : Accounted size ⟨front ++ w :: back, callers, s⟩ items)
    (step : w.step s = some (w', s')) : Covered ⟨front ++ w' :: back, callers, s'⟩ := by
  intro idle
  have before (starved : .starved ∈ front ++ back) := covered (.inr (by
    show _ ∈ front ++ w :: back
    rw [perm_middle.mem_iff]
    exact mem_cons_of_mem w starved))
  cases w with
  | outside =>
    simp only [Worker.step] at step
    split_ifs at step
    all_goals
      cases step
      exact before (starved_of_idle idle nofun nofun)
  | called | woken =>
    simp only [Worker.step] at step
    split_ifs at step
    cases step
    exact before (starved_of_idle idle nofun nofun)
  | entered =>
    simp only [Worker.step] at step
    split_ifs at step with _ none_counted
    · cases step
      exact before (starved_of_idle idle nofun nofun)
    · cases step
      exact accounted.awaited few none_counted
    · cases step
      exact before (starved_of_idle idle nofun nofun)
  | starved =>
    cases step
    exact covered (.inr (by simp))
  | ready =>
    have starved : .starved ∈ front ++ back := by
      simp only [Worker.step] at step
      split at step
      all_goals
        cases step
        exact starved_of_idle idle nofun nofun
    have holders := accounted.lock
    rw [countP_middle] at holders
    have holder : 0 < (front ++ back).countP Worker.holds :=
      countP_pos_iff.mpr ⟨_, starved, rfl⟩
    have := s.locked.toNat_le
    simp only [Worker.holds, Bool.toNat_true] at holders
    omega
  | popped | counted =>
    cases step
    exact (before (starved_of_idle idle nofun nofun)).keep ⟨rfl, rfl⟩
  | waiting | exited => cases step

theorem Covered.dispatch (covered : Covered ⟨workers, front' ++ c :: back', s⟩)
    (step : c.step s = some (c', s')) : Covered ⟨workers, front' ++ c' :: back', s'⟩ := by
  intro idle
  cases c with
  | called task =>
    simp only [Caller.step] at step
    split_ifs at step
    cases step
    exact (covered idle).replace rfl ⟨rfl, rfl⟩
  | entered task =>
    simp only [Caller.step] at step
    split at step
    · cases step
      exact (covered idle).replace rfl ⟨rfl, rfl⟩
    · cases step
      exact .inr ⟨.pushed, by simp, rfl⟩
  | pushed =>
    cases step
    exact .inr ⟨.counted, by simp, rfl⟩
  | outside | counted => cases step

theorem Covered.step {b : Bool} {pool pool' : SwThreadPool τ} (covered : Covered pool)
    (threads : pool.workers ≠ []) (few : size + pool.workers.length ≤ 0xFFFFFFFF)
    (accounted : Accounted size pool items) (step : Step b pool pool')
    (signals : b = true → .starved ∉ pool.workers) : Covered pool' := by
  intro idle
  cases step with
  | work step => exact covered.work few accounted step idle
  | call task => exact (covered idle).replace rfl ⟨rfl, rfl⟩
  | dispatch step => exact covered.dispatch step idle
  | notify =>
    have starved := starved_of_idle idle nofun nofun
    exact absurd (by simpa using starved) (signals rfl)
  | notifyNobody nobody =>
    rcases idle with all | starved
    · obtain ⟨w, mem⟩ := exists_mem_of_ne_nil _ threads
      exact absurd (all w mem ▸ mem) nobody
    · exact absurd starved (signals rfl)
  | wake =>
    have starved := starved_of_idle idle nofun nofun
    exact covered (.inr (by simpa using starved))
  | free | stop => exact covered idle

end

variable {null : τ} {size threads callers : Nat} {allowed : SwThreadPool τ → Prop}
  {pool : SwThreadPool τ}

/-- **As long as no call signals between the test of `task_num` by a thread and its wait, no task is
left behind:** when all threads wait and no call has still to count or to signal, every task that
was accepted has been performed. -/
theorem performed_of_run (positive : 0 < size) (some_ : 0 < threads)
    (few : size + threads ≤ 0xFFFFFFFF)
    (run : Run null size threads callers (fun pool => .starved ∉ pool.workers) pool)
    (waiting : ∀ w ∈ pool.workers, w = .waiting) (landed : ∀ c ∈ pool.callers, ¬c.inFlight) :
    pool.shared.accepted.Perm pool.shared.performed := by
  have covered : pool.workers.length = threads ∧ Covered pool := by
    clear waiting landed
    induction run with
    | init => exact ⟨length_replicate, fun _ => .inl rfl⟩
    | step run step signals ih =>
      obtain ⟨items, accounted⟩ := run.accounted positive
      have ⟨length, covered⟩ := ih
      refine ⟨step.length_workers.trans length, covered.step ?_ ?_ accounted step signals⟩
      · exact ne_nil_of_length_pos (by omega)
      · omega
  obtain ⟨items, accounted⟩ := run.accounted positive
  have hands : pool.workers.filterMap Worker.hand = [] :=
    filterMap_eq_nil_iff.mpr fun w mem => by rw [waiting w mem]; rfl
  have once := accounted.once
  rw [hands, append_nil] at once
  rcases covered.2 (.inl waiting) with all | ⟨c, mem, flies⟩
  · rwa [all]
  · exact absurd flies (landed c mem)

theorem performed_of_run_one : ∃ pool : SwThreadPool Nat, pool.shared.accepted = [7] ∧
    pool.shared.accepted.Perm pool.shared.performed := by
  have start : Run 0 1 1 1 (fun pool : SwThreadPool Nat => .starved ∉ pool.workers)
      ⟨[] ++ .outside :: [], [] ++ .outside :: [], _⟩ := .init
  have sent := (((start.step (.call 7) (by simp)).dispatch rfl).dispatch rfl).dispatch rfl
  have told := sent.step (.notifyNobody (by simp)) fun _ => by simp
  have taken := ((((told.work rfl).work rfl).work rfl).work rfl).work rfl
  have waits := ((((taken.work rfl).work rfl).work rfl).work rfl).work rfl
  exact ⟨_, rfl, performed_of_run one_pos one_pos (by decide) waits (by simp)
    (by simp [Caller.inFlight])⟩

/-- The signal comes between the test and the wait, and the task is left behind. -/
theorem not_performed : ∃ pool : SwThreadPool Nat, Run 0 1 1 1 (fun _ => True) pool ∧
    (∀ w ∈ pool.workers, w = .waiting) ∧ (∀ c ∈ pool.callers, ¬c.inFlight) ∧
      ¬pool.shared.accepted.Perm pool.shared.performed := by
  have start : Run 0 1 1 1 (fun _ : SwThreadPool Nat => True)
      ⟨[] ++ .outside :: [], [] ++ .outside :: [], _⟩ := .init
  have pushed := ((start.step (.call 7) (by simp)).dispatch rfl).dispatch rfl
  have tested := ((pushed.work rfl).work rfl).work rfl
  have told := (tested.dispatch rfl).step (.notifyNobody (by simp)) fun _ => trivial
  exact ⟨_, told.work rfl, by simp, by simp [Caller.inFlight], by simp⟩

end PhpExts.Swoole.ThreadPool
