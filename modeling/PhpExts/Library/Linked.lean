import Mathlib

/-!
# Doubly linked lists

A doubly linked list in memory is two functions on addresses, the link to the next
node and the link to the node before.  `Linked next prev nodes` says that each of
the nodes is linked to the one behind it in both directions; what the first node has
behind itself and the last one in front is left open, so that lists with a node of
their own at either end and rings can both be stated.

An edit changes the links at its place only.  `unlink`, `insert` and `replace` are
the three edits, stated for the updates that a program makes.
-/

namespace PhpExts.Library

open Function (update update_of_ne update_self)
open List (append_assoc cons_append nodup_cons)

variable {α : Type}

/-- Neighbours are linked both ways. -/
def Linked (next prev : α → α) (nodes : List α) : Prop :=
  nodes.IsChain fun a b => next a = b ∧ prev b = a

namespace Linked

variable {next prev next' prev' : α → α} {front back : List α} {a b c d : α}

theorem congr {nodes : List α} (linked : Linked next prev nodes)
    (sameNext : ∀ x ∈ nodes.dropLast, next' x = next x)
    (samePrev : ∀ x ∈ nodes.tail, prev' x = prev x) : Linked next' prev' nodes := by
  induction nodes with
  | nil => exact .nil
  | cons x nodes ih =>
    cases nodes with
    | nil => exact .singleton x
    | cons y nodes =>
      obtain ⟨⟨forward, backward⟩, rest⟩ := List.isChain_cons_cons.mp linked
      refine List.isChain_cons_cons.mpr ⟨⟨?_, ?_⟩, ih rest (fun z mem => ?_) fun z mem => ?_⟩
      · rw [sameNext x (by simp), forward]
      · rw [samePrev y (by simp), backward]
      · exact sameNext z (by simp [mem])
      · exact samePrev z (by
          rw [List.tail_cons] at mem ⊢
          exact .tail _ mem)

theorem split : Linked next prev (front ++ a :: b :: back) ↔
    Linked next prev (front ++ [a]) ∧ (next a = b ∧ prev b = a) ∧ Linked next prev (b :: back) :=
  List.isChain_append_cons_cons

/-- No node comes twice, but the last one may be the first one, as in a ring. -/
structure Simple (nodes : List α) : Prop where
  init : nodes.dropLast.Nodup
  rest : nodes.tail.Nodup

theorem Simple.of_nodup {nodes : List α} (nodup : nodes.Nodup) : Simple nodes :=
  ⟨nodup.sublist (List.dropLast_sublist _), nodup.sublist (List.tail_sublist _)⟩

theorem Simple.apart (simple : Simple (front ++ a :: c :: b :: back)) :
    c ≠ a ∧ c ≠ b ∧ (∀ x ∈ front, x ≠ a ∧ x ≠ c) ∧ (∀ x ∈ (front ++ [a]).tail, x ≠ b ∧ x ≠ c)
      ∧ (∀ x ∈ (b :: back).dropLast, x ≠ a ∧ x ≠ c) ∧ ∀ x ∈ back, x ≠ b ∧ x ≠ c := by
  obtain ⟨init, rest⟩ := simple
  have split : front ++ a :: c :: b :: back = (front ++ [a]) ++ c :: b :: back := by simp
  rw [List.dropLast_append_of_ne_nil (by simp), List.dropLast_cons_cons, List.dropLast_cons_cons,
    List.nodup_append, nodup_cons, nodup_cons] at init
  rw [split, List.tail_append_of_ne_nil (by simp), List.nodup_append, nodup_cons,
    nodup_cons] at rest
  obtain ⟨-, ⟨outA, outC, -⟩, early⟩ := init
  obtain ⟨-, ⟨outC', outB, -⟩, late⟩ := rest
  refine ⟨fun eq => outA (by simp [eq]), fun eq => outC' (by simp [eq]), fun x mem => ⟨?_, ?_⟩,
    fun x mem => ⟨?_, ?_⟩, fun x mem => ⟨?_, ?_⟩, fun x mem => ⟨?_, ?_⟩⟩
  · exact early x mem a (by simp)
  · exact early x mem c (by simp)
  · exact late x mem b (by simp)
  · exact late x mem c (by simp)
  · rintro rfl
    exact outA (.tail _ mem)
  · rintro rfl
    exact outC mem
  · rintro rfl
    exact outB mem
  · rintro rfl
    exact outC' (.tail _ mem)

variable [DecidableEq α]

theorem unlink (linked : Linked next prev (front ++ a :: c :: b :: back))
    (simple : Simple (front ++ a :: c :: b :: back)) :
    Linked (update next a b) (update prev b a) (front ++ a :: b :: back) := by
  obtain ⟨before, -, after⟩ := split.mp linked
  have rest : Linked next prev (b :: back) := (List.isChain_cons_cons.mp after).2
  obtain ⟨-, -, left, left', right, right'⟩ := simple.apart
  refine split.mpr ⟨before.congr (fun x mem => ?_) (fun x mem => ?_), ⟨by simp, by simp⟩,
    rest.congr (fun x mem => ?_) fun x mem => ?_⟩
  · rw [List.dropLast_concat] at mem
    exact update_of_ne (left x mem).1 _ _
  · exact update_of_ne (left' x mem).1 _ _
  · exact update_of_ne (right x mem).1 _ _
  · exact update_of_ne (right' x mem).1 _ _

theorem join (before : Linked next prev (front ++ [a])) (after : Linked next prev (b :: back))
    (simple : Simple (front ++ a :: c :: b :: back)) :
    Linked (update (update next c b) a c) (update (update prev c a) b c)
      (front ++ a :: c :: b :: back) := by
  obtain ⟨ca, cb, left, left', right, right'⟩ := simple.apart
  refine split.mpr ⟨before.congr (fun x mem => ?_) (fun x mem => ?_), ⟨by simp, ?_⟩,
    List.isChain_cons_cons.mpr ⟨⟨?_, by simp⟩, after.congr (fun x mem => ?_) fun x mem => ?_⟩⟩
  · rw [List.dropLast_concat] at mem
    rw [update_of_ne (left x mem).1, update_of_ne (left x mem).2]
  · rw [update_of_ne (left' x mem).1, update_of_ne (left' x mem).2]
  · rw [update_of_ne cb, update_self]
  · rw [update_of_ne ca, update_self]
  · rw [update_of_ne (right x mem).1, update_of_ne (right x mem).2]
  · rw [update_of_ne (right' x mem).1, update_of_ne (right' x mem).2]

theorem insert (linked : Linked next prev (front ++ a :: b :: back))
    (simple : Simple (front ++ a :: c :: b :: back)) : Linked (update (update next c b) a c)
      (update (update prev c a) b c) (front ++ a :: c :: b :: back) :=
  join (split.mp linked).1 (split.mp linked).2.2 simple

theorem replace (linked : Linked next prev (front ++ a :: c :: b :: back))
    (simple : Simple (front ++ a :: d :: b :: back)) : Linked (update (update next d b) a d)
      (update (update prev d a) b d) (front ++ a :: d :: b :: back) :=
  join (split.mp linked).1 (List.isChain_cons_cons.mp (split.mp linked).2.2).2 simple

omit [DecidableEq α] in
theorem neighbours (linked : Linked next prev (front ++ a :: c :: b :: back)) :
    next a = c ∧ prev c = a ∧ next c = b ∧ prev b = c := by
  obtain ⟨-, ⟨ac, ca⟩, rest⟩ := split.mp linked
  obtain ⟨⟨cb, bc⟩, -⟩ := List.isChain_cons_cons.mp rest
  exact ⟨ac, ca, cb, bc⟩

/-! ## Edits at a node between two ends

An edit that reads the neighbours off the links of the node itself. -/

variable {first last : α} {nodes nodes' : List α}

omit [DecidableEq α] in
theorem exists_neighbours (linked : Linked next prev (first :: (nodes ++ c :: (nodes' ++ [last])))) :
    ∃ front back, first :: nodes = front ++ [prev c] ∧ nodes' ++ [last] = next c :: back := by
  obtain ⟨front, a, left⟩ : ∃ front a, first :: nodes = front ++ [a] :=
    ⟨_, _, (List.dropLast_append_getLast (List.cons_ne_nil first nodes)).symm⟩
  obtain ⟨b, back, right⟩ : ∃ b back, nodes' ++ [last] = b :: back := by
    cases nodes' with
    | nil => exact ⟨_, _, rfl⟩
    | cons b nodes' => exact ⟨_, _, rfl⟩
  have chain : first :: (nodes ++ c :: (nodes' ++ [last])) = front ++ a :: c :: b :: back := by
    rw [← cons_append, left, right, append_assoc]
    rfl
  rw [chain] at linked
  obtain ⟨-, ca, cb, -⟩ := linked.neighbours
  exact ⟨front, back, by rw [ca, left], by rw [cb, right]⟩

theorem unlinkAt (linked : Linked next prev (first :: (nodes ++ c :: (nodes' ++ [last]))))
    (simple : Simple (first :: (nodes ++ c :: (nodes' ++ [last])))) :
    Linked (update next (prev c) (next c)) (update prev (next c) (prev c))
      (first :: (nodes ++ (nodes' ++ [last]))) := by
  obtain ⟨front, back, left, right⟩ := linked.exists_neighbours
  have chain : first :: (nodes ++ c :: (nodes' ++ [last])) =
      front ++ prev c :: c :: next c :: back := by
    rw [← cons_append, left, right, append_assoc]
    rfl
  have result : first :: (nodes ++ (nodes' ++ [last])) = front ++ prev c :: next c :: back := by
    rw [← cons_append, left, right, append_assoc]
    rfl
  rw [chain] at linked simple
  rw [result]
  exact linked.unlink simple

theorem replaceAt (linked : Linked next prev (first :: (nodes ++ c :: (nodes' ++ [last]))))
    (simple : Simple (first :: (nodes ++ d :: (nodes' ++ [last])))) :
    Linked (update (update next d (next c)) (prev c) d) (update (update prev d (prev c)) (next c) d)
      (first :: (nodes ++ d :: (nodes' ++ [last]))) := by
  obtain ⟨front, back, left, right⟩ := linked.exists_neighbours
  have chain : ∀ x, first :: (nodes ++ x :: (nodes' ++ [last])) =
      front ++ prev c :: x :: next c :: back := fun x => by
    rw [← cons_append, left, right, append_assoc]
    rfl
  rw [chain] at linked simple ⊢
  exact linked.replace simple

/-! ## Rings -/

/-- A ring, from the node `z` through the other ones back to it. -/
structure Ring (next prev : α → α) (z : α) (nodes : List α) : Prop where
  linked : Linked next prev (z :: (nodes ++ [z]))
  nodup : (z :: nodes).Nodup

namespace Ring

variable {z : α}

omit [DecidableEq α] in
theorem congr (ring : Ring next prev z nodes) (sameNext : ∀ x, next' x = next x)
    (samePrev : ∀ x, prev' x = prev x) : Ring next' prev' z nodes :=
  ⟨ring.linked.congr (fun x _ => sameNext x) fun x _ => samePrev x, ring.nodup⟩

omit [DecidableEq α] in
theorem simple (nodup : (z :: nodes).Nodup) : Simple (z :: (nodes ++ [z])) :=
  ⟨by rwa [← cons_append, List.dropLast_concat], (List.perm_append_singleton z nodes).nodup_iff.mpr nodup⟩

omit [DecidableEq α] in
theorem next_mem (ring : Ring next prev z nodes) : next z ∈ z :: nodes := by
  have linked := ring.linked
  cases nodes <;> simp [(List.isChain_cons_cons.mp linked).1.1]

omit [DecidableEq α] in
theorem prev_mem (ring : Ring next prev z nodes) (some_ : nodes ≠ []) : prev z ∈ nodes := by
  obtain ⟨front, a, rfl⟩ : ∃ front a, nodes = front ++ [a] :=
    ⟨_, _, (List.dropLast_append_getLast some_).symm⟩
  have linked := ring.linked
  rw [append_assoc, ← cons_append] at linked
  simp [(Linked.split.mp linked).2.1.2]

theorem cut (ring : Ring next prev z (front ++ c :: back)) :
    Ring (update next (prev c) (next c)) (update prev (next c) (prev c)) z (front ++ back) := by
  obtain ⟨linked, nodup⟩ := ring
  have unlinkable := simple nodup
  rw [append_assoc, cons_append] at linked unlinkable
  refine ⟨?_, nodup.sublist (((List.sublist_cons_self c back).append_left front).cons_cons z)⟩
  rw [append_assoc]
  exact linked.unlinkAt unlinkable

theorem insertFirst (ring : Ring next prev z nodes) (new : c ∉ z :: nodes) :
    Ring (update (update next c (next z)) z c) (update (update prev c z) (next z) c) z
      (c :: nodes) := by
  obtain ⟨linked, nodup⟩ := ring
  have nodup' : (z :: c :: nodes).Nodup :=
    (List.Perm.swap c z nodes).nodup_iff.mpr (List.nodup_cons.mpr ⟨new, nodup⟩)
  obtain ⟨b, rest, split⟩ : ∃ b rest, nodes ++ [z] = b :: rest := by
    cases nodes <;> exact ⟨_, _, rfl⟩
  have insertable := simple nodup'
  rw [cons_append] at insertable
  rw [split] at linked insertable
  obtain rfl : next z = b := (List.isChain_cons_cons.mp linked).1.1
  refine ⟨?_, nodup'⟩
  rw [cons_append, split]
  have behind : Linked next prev ([] ++ z :: next z :: rest) := linked
  exact behind.insert insertable

theorem insertLast (ring : Ring next prev z nodes) (new : c ∉ z :: nodes) :
    Ring (update (update next c z) (prev z) c) (update (update prev c (prev z)) z c) z
      (nodes ++ [c]) := by
  obtain ⟨linked, nodup⟩ := ring
  have nodup' : (z :: (nodes ++ [c])).Nodup :=
    ((List.perm_append_singleton c nodes).cons z).nodup_iff.mpr
      ((List.Perm.swap c z nodes).nodup_iff.mpr (List.nodup_cons.mpr ⟨new, nodup⟩))
  obtain ⟨front, a, split⟩ : ∃ front a, z :: nodes = front ++ [a] :=
    ⟨_, _, (List.dropLast_append_getLast (List.cons_ne_nil z nodes)).symm⟩
  have insertable := simple nodup'
  have chain (back : List α) : z :: (nodes ++ back) = front ++ a :: back := by
    rw [← cons_append, split, append_assoc, List.singleton_append]
  rw [chain] at linked
  rw [append_assoc, chain] at insertable
  obtain rfl : prev z = a := (Linked.split.mp linked).2.1.2
  refine ⟨?_, nodup'⟩
  rw [append_assoc, chain]
  exact linked.insert insertable

end Ring

end Linked

end PhpExts.Library
