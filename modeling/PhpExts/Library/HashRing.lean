import Mathlib

/-!
# Points on a ring

Points have places in a linear order. An element of the order belongs to the lowest point that is not
below it, or to the lowest of all if every point is. With fewer points, what belongs to one that is left
still does (`Selects.of_subset`).
-/

namespace PhpExts.Library.HashRing

variable {P α : Type} [LinearOrder α] {value : P → α} {points small big : List P} {h : α} {p q : P}

/-- `h` belongs to `p`. -/
structure Selects (value : P → α) (points : List P) (h : α) (p : P) : Prop where
  mem : p ∈ points
  lowest : (h ≤ value p ∧ ∀ q ∈ points, h ≤ value q → value p ≤ value q) ∨
    (∀ q ∈ points, value q < h) ∧ ∀ q ∈ points, value p ≤ value q

theorem Selects.of_subset (selects : Selects value big h p) (subset : small ⊆ big)
    (mem : p ∈ small) : Selects value small h p := by
  refine ⟨mem, ?_⟩
  rcases selects.lowest with ⟨notBelow, lowest⟩ | ⟨below, lowest⟩
  · left
    exact ⟨notBelow, fun q isPoint => lowest q (subset isPoint)⟩
  · right
    exact ⟨fun q isPoint => below q (subset isPoint), fun q isPoint => lowest q (subset isPoint)⟩

theorem Selects.value_eq (first : Selects value points h p) (second : Selects value points h q) :
    value p = value q := by
  rcases first.lowest with ⟨notBelow, lowest⟩ | ⟨below, lowest⟩
  · rcases second.lowest with ⟨notBelow', lowest'⟩ | ⟨below', -⟩
    · exact le_antisymm (lowest q second.mem notBelow') (lowest' p first.mem notBelow)
    · exact absurd (below' p first.mem) (not_lt.mpr notBelow)
  · rcases second.lowest with ⟨notBelow', -⟩ | ⟨-, lowest'⟩
    · exact absurd (below q second.mem) (not_lt.mpr notBelow')
    · exact le_antisymm (lowest q second.mem) (lowest' p first.mem)

/-- Points are added, and no two have the same place: an element belongs to the same point as before,
or to one that has been added. -/
theorem Selects.same_or_added (before : Selects value small h p) (after : Selects value big h q)
    (subset : small ⊆ big) (distinct : ∀ a ∈ big, ∀ b ∈ big, value a = value b → a = b) :
    q = p ∨ q ∉ small := by
  by_cases old : q ∈ small
  · left
    have same := (after.of_subset subset old).value_eq before
    exact distinct q after.mem p (subset before.mem) same
  · right
    exact old

theorem Selects.of_first {front back : List P} (sorted : (front ++ p :: back).Pairwise
    fun a b => value a ≤ value b) (below : ∀ q ∈ front, value q < h) (notBelow : h ≤ value p) :
    Selects value (front ++ p :: back) h p := by
  refine ⟨List.mem_append_right _ (.head _), .inl ⟨notBelow, fun q isPoint bound => ?_⟩⟩
  rcases List.mem_append.mp isPoint with inFront | isRest
  · exact absurd (below q inFront) (not_lt.mpr bound)
  · rcases List.mem_cons.mp isRest with rfl | inBack
    · exact le_refl _
    · exact (List.pairwise_cons.mp (List.pairwise_append.mp sorted).2.1).1 q inBack

theorem Selects.of_below {back : List P} (sorted : (p :: back).Pairwise fun a b => value a ≤ value b)
    (below : ∀ q ∈ p :: back, value q < h) : Selects value (p :: back) h p := by
  refine ⟨.head _, .inr ⟨below, fun q isPoint => ?_⟩⟩
  rcases List.mem_cons.mp isPoint with rfl | inBack
  · exact le_refl _
  · exact (List.pairwise_cons.mp sorted).1 q inBack

end PhpExts.Library.HashRing
