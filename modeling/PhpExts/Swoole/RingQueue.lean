import Mathlib.Data.Nat.ModEq
import Mathlib.Logic.Function.Basic

/-!
# The ring queue

`RingQueue.c` keeps pointers in an array that is used round and round, with the places of the first
one and of the next one. Where these are equal a tag tells a full queue from an empty one; it is not
kept up to date elsewhere. This is the version without `SW_USE_RINGQUEUE_TS`, as it is configured.
-/

namespace PhpExts.Swoole.RingQueue

open Function

variable {α : Type}

/-- `swRingQueue`. -/
structure SwRingQueue (α : Type) where
  head : Nat
  tail : Nat
  tag : Bool
  size : Nat
  data : Nat → α

/-- `swRingQueue_init`. -/
def swRingQueueInit (null : α) (bufferSize : Nat) : SwRingQueue α :=
  ⟨0, 0, false, bufferSize, fun _ => null⟩

/-- `swRingQueue_push`. -/
def swRingQueuePush (queue : SwRingQueue α) (pushData : α) : Bool × SwRingQueue α :=
  if queue.head = queue.tail ∧ queue.tag then (false, queue)
  else
    let tail := (queue.tail + 1) % queue.size
    (true, { queue with
      data := update queue.data queue.tail pushData
      tail
      tag := if tail = queue.head then true else queue.tag })

/-- `swRingQueue_pop`, with the pointer that it writes. -/
def swRingQueuePop (queue : SwRingQueue α) : Option α × SwRingQueue α :=
  if queue.head = queue.tail ∧ queue.tag = false then (none, queue)
  else
    let head := (queue.head + 1) % queue.size
    (some (queue.data queue.head), { queue with
      head
      tag := if queue.tail = head then false else queue.tag })

/-- The pointers that are in the queue, the oldest one first. -/
structure Holds (queue : SwRingQueue α) (items : List α) : Prop where
  head : queue.head < queue.size
  tail : queue.tail = (queue.head + items.length) % queue.size
  room : items.length ≤ queue.size
  full : items.length = queue.size → queue.tag = true
  empty : items = [] → queue.tag = false
  data : ∀ i a, items[i]? = some a → queue.data ((queue.head + i) % queue.size) = a

variable {queue : SwRingQueue α} {items : List α}

theorem holds_init (null : α) {size : Nat} (positive : 0 < size) :
    Holds (swRingQueueInit null size) [] :=
  ⟨positive, (Nat.zero_mod _).symm, Nat.zero_le _, fun eq => absurd eq positive.ne, fun _ => rfl,
    nofun⟩

theorem size_push (queue : SwRingQueue α) (a : α) :
    (swRingQueuePush queue a).2.size = queue.size := by
  rw [swRingQueuePush]
  split_ifs <;> rfl

theorem size_pop (queue : SwRingQueue α) : (swRingQueuePop queue).2.size = queue.size := by
  rw [swRingQueuePop]
  split_ifs <;> rfl

theorem place_ne {head size i j : Nat} (less : i < j) (turn : j < i + size) :
    (head + i) % size ≠ (head + j) % size := by
  intro same
  have divides := (Nat.modEq_iff_dvd' (Nat.add_le_add_left less.le head)).mp same
  rw [Nat.add_sub_add_left] at divides
  have := Nat.le_of_dvd (Nat.sub_pos_of_lt less) divides
  omega

theorem Holds.head_eq_tail (holds : Holds queue items) :
    queue.head = queue.tail ↔ items = [] ∨ items.length = queue.size := by
  have head := holds.head
  rw [holds.tail]
  constructor
  · intro same
    by_contra neither
    rw [not_or, ← List.length_eq_zero_iff] at neither
    have room := holds.room
    exact @place_ne queue.head queue.size 0 items.length (by omega) (by omega)
      ((Nat.mod_eq_of_lt head).trans same)
  · rintro (rfl | turn)
    · exact (Nat.mod_eq_of_lt head).symm
    · rw [turn, Nat.add_mod_right, Nat.mod_eq_of_lt head]

theorem Holds.push (holds : Holds queue items) (a : α) :
    (swRingQueuePush queue a).1 = decide (items.length < queue.size) ∧
      Holds (swRingQueuePush queue a).2
        (if items.length < queue.size then items ++ [a] else items) := by
  have head := holds.head
  have same := holds.head_eq_tail
  by_cases room : items.length < queue.size
  · have notFull : ¬(queue.head = queue.tail ∧ queue.tag = true) := by
      rintro ⟨eq, tag⟩
      rcases same.mp eq with empty | full
      · rw [holds.empty empty] at tag
        cases tag
      · omega
    have next : (queue.tail + 1) % queue.size =
        (queue.head + (items ++ [a]).length) % queue.size := by
      rw [holds.tail, Nat.mod_add_mod, List.length_append, List.length_singleton, Nat.add_assoc]
    rw [swRingQueuePush, if_neg notFull, if_pos room]
    refine ⟨(decide_eq_true room).symm, head, next, ?_, fun full => ?_, fun empty => ?_,
      fun i b at_ => ?_⟩
    · rw [List.length_append]
      exact room
    · dsimp only at full next ⊢
      rw [next, full, Nat.add_mod_right, Nat.mod_eq_of_lt head, if_pos rfl]
    · exact absurd empty (by simp)
    · dsimp only
      rcases Nat.lt_trichotomy i items.length with old | rfl | beyond
      · rw [update_of_ne, holds.data i b (by rwa [List.getElem?_append_left old] at at_)]
        rw [holds.tail]
        exact place_ne old (by omega)
      · rw [List.getElem?_concat_length] at at_
        rw [← holds.tail, update_self]
        exact Option.some.inj at_
      · rw [List.getElem?_eq_none (by rw [List.length_append]; exact beyond)] at at_
        cases at_
  · have full : items.length = queue.size := by
      have := holds.room
      omega
    rw [swRingQueuePush, if_pos ⟨same.mpr (.inr full), holds.full full⟩, if_neg room]
    exact ⟨(decide_eq_false room).symm, holds⟩

theorem Holds.pop (holds : Holds queue items) :
    (swRingQueuePop queue).1 = items.head? ∧ Holds (swRingQueuePop queue).2 items.tail := by
  have head := holds.head
  have same := holds.head_eq_tail
  cases items with
  | nil =>
    rw [swRingQueuePop, if_pos ⟨same.mpr (.inl rfl), holds.empty rfl⟩]
    exact ⟨rfl, holds⟩
  | cons a items =>
    have notEmpty : ¬(queue.head = queue.tail ∧ queue.tag = false) := by
      rintro ⟨eq, tag⟩
      rcases same.mp eq with empty | full
      · cases empty
      · rw [holds.full full] at tag
        cases tag
    have first := holds.data 0 a rfl
    rw [Nat.add_zero, Nat.mod_eq_of_lt head] at first
    have place (i : Nat) : ((queue.head + 1) % queue.size + i) % queue.size =
        (queue.head + (i + 1)) % queue.size := by
      rw [Nat.mod_add_mod, Nat.add_assoc, Nat.add_comm 1]
    have room := holds.room
    rw [List.length_cons] at room
    rw [swRingQueuePop, if_neg notEmpty]
    refine ⟨congrArg some first, Nat.mod_lt _ (by omega), ?_, Nat.le_of_lt room, fun full => ?_,
      fun empty => ?_, fun i b at_ => ?_⟩
    · exact holds.tail.trans (place _).symm
    · dsimp only [List.tail_cons] at full
      omega
    · obtain rfl : items = [] := empty
      exact if_pos holds.tail
    · exact (congrArg _ (place i)).trans (holds.data (i + 1) b at_)

/-! ## Calls in a row -/

inductive Call (α : Type) where
  | push (a : α)
  | pop

inductive Answer (α : Type) where
  | push (pushed : Bool)
  | pop (popped : Option α)

def SwRingQueue.answer (queue : SwRingQueue α) : Call α → Answer α × SwRingQueue α
  | .push a => (swRingQueuePush queue a).map .push id
  | .pop => (swRingQueuePop queue).map .pop id

/-- The same calls on a list that holds `size` items at most. -/
def boundedAnswer (size : Nat) (items : List α) : Call α → Answer α × List α
  | .push a => (.push (items.length < size), if items.length < size then items ++ [a] else items)
  | .pop => (.pop items.head?, items.tail)

def answers {σ : Type} (answer : σ → Call α → Answer α × σ) (s : σ) :
    List (Call α) → List (Answer α)
  | [] => []
  | call :: calls => (answer s call).1 :: answers answer (answer s call).2 calls

theorem Holds.answer (holds : Holds queue items) (call : Call α) :
    (queue.answer call).1 = (boundedAnswer queue.size items call).1 ∧
      Holds (queue.answer call).2 (boundedAnswer queue.size items call).2 ∧
      (queue.answer call).2.size = queue.size := by
  cases call with
  | push a =>
    obtain ⟨same, holds'⟩ := holds.push a
    exact ⟨congrArg Answer.push same, holds', size_push queue a⟩
  | pop =>
    obtain ⟨same, holds'⟩ := holds.pop
    exact ⟨congrArg Answer.pop same, holds', size_pop queue⟩

theorem Holds.answers (holds : Holds queue items) (calls : List (Call α)) :
    answers SwRingQueue.answer queue calls = answers (boundedAnswer queue.size) items calls := by
  induction calls generalizing queue items with
  | nil => rfl
  | cons call calls ih =>
    obtain ⟨same, holds', size⟩ := holds.answer call
    rw [RingQueue.answers, RingQueue.answers, same, ih holds', size]

/-- **The ring queue is a bounded queue: each call is answered as by a list of that size.** -/
theorem answers_eq (null : α) {size : Nat} (positive : 0 < size) (calls : List (Call α)) :
    answers SwRingQueue.answer (swRingQueueInit null size) calls =
      answers (boundedAnswer size) [] calls :=
  (holds_init null positive).answers calls

theorem answers_eq_two :
    answers SwRingQueue.answer (swRingQueueInit 0 2) [.push 5, .push 6, .push 7, .pop] =
      answers (boundedAnswer 2) [] [.push 5, .push 6, .push 7, .pop] :=
  answers_eq 0 (by decide) _

end PhpExts.Swoole.RingQueue
