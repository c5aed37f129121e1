import Mathlib

/-!
# Walks over a graph

A graph is the list of the successors of every vertex. `Visits` is the walk that goes to the
successors of a vertex before it counts the vertex itself, and goes there again whenever the
vertex is met again. It ends exactly where no cycle can be reached, and counts what can be
reached.

An edge that is added joins what reaches its source with what its target reaches
(`transGen_addEdge`).
-/

namespace PhpExts.Library

variable {α : Type}

/-- `y` is a successor of `x`. -/
def Successor (graph : α → List α) (x y : α) : Prop := y ∈ graph x

/-- The walk from the roots counts the vertices in this order. -/
inductive Visits (graph : α → List α) : List α → List α → Prop
  | nil : Visits graph [] []
  | cons {root : α} {roots below behind : List α} : Visits graph (graph root) below →
      Visits graph roots behind → Visits graph (root :: roots) (below ++ root :: behind)

namespace Visits

variable {graph : α → List α} {root : α} {roots order below : List α}

theorem cons_inv (visits : Visits graph (root :: roots) order) :
    ∃ below behind, order = below ++ root :: behind ∧ Visits graph (graph root) below ∧
      Visits graph roots behind := by
  cases visits with
  | cons first rest => exact ⟨_, _, rfl, first, rest⟩

theorem singleton_inv (visits : Visits graph [root] order) :
    ∃ below, order = below ++ [root] ∧ Visits graph (graph root) below := by
  obtain ⟨below, behind, rfl, first, rest⟩ := visits.cons_inv
  cases rest
  exact ⟨below, rfl, first⟩

theorem singleton (visits : Visits graph (graph root) below) :
    Visits graph [root] (below ++ [root]) :=
  .cons visits .nil

theorem unique {order' : List α} (visits : Visits graph roots order)
    (visits' : Visits graph roots order') : order = order' := by
  induction visits generalizing order' with
  | nil =>
    cases visits'
    rfl
  | cons _ _ ihBelow ihBehind =>
    obtain ⟨below', behind', rfl, first, rest⟩ := visits'.cons_inv
    rw [ihBelow first, ihBehind rest]

/-- The walk counts the vertices that can be reached, and no others. -/
theorem mem_iff (visits : Visits graph roots order) {x : α} :
    x ∈ order ↔ ∃ root ∈ roots, Relation.ReflTransGen (Successor graph) root x := by
  induction visits with
  | nil => simp
  | @cons root roots below behind _ _ ihBelow ihBehind =>
    rw [List.mem_append, List.mem_cons, ihBelow, ihBehind]
    constructor
    · rintro (⟨next, mem, reached⟩ | rfl | ⟨other, mem, reached⟩)
      · exact ⟨root, .head _, .head mem reached⟩
      · exact ⟨x, .head _, .refl⟩
      · exact ⟨other, .tail _ mem, reached⟩
    · rintro ⟨other, mem, reached⟩
      rcases List.mem_cons.mp mem with rfl | mem
      · rcases Relation.ReflTransGen.cases_head reached with rfl | ⟨next, step, reached⟩
        · exact .inr (.inl rfl)
        · exact .inl ⟨next, step, reached⟩
      · exact .inr (.inr ⟨other, mem, reached⟩)

/-- The walk from every root ends. -/
theorem exists_of_acc (reachable : ∀ root ∈ roots, Acc (fun y x => Successor graph x y) root) :
    ∃ order, Visits graph roots order := by
  have vertex : ∀ root, Acc (fun y x => Successor graph x y) root →
      ∃ below, Visits graph (graph root) below := by
    intro root accessible
    induction accessible with
    | intro root _ ih =>
      have all : ∀ successors : List α, (∀ next ∈ successors, Successor graph root next) →
          ∃ order, Visits graph successors order := by
        intro successors
        induction successors with
        | nil => exact fun _ => ⟨[], .nil⟩
        | cons next successors ihList =>
          intro isSuccessor
          obtain ⟨below, first⟩ := ih next (isSuccessor next (.head _))
          obtain ⟨behind, rest⟩ :=
            ihList fun other mem => isSuccessor other (.tail _ mem)
          exact ⟨_, .cons first rest⟩
      exact all (graph root) fun _ mem => mem
  induction roots with
  | nil => exact ⟨[], .nil⟩
  | cons root roots ih =>
    obtain ⟨below, first⟩ := vertex root (reachable root (.head _))
    obtain ⟨behind, rest⟩ := ih fun other mem => reachable other (.tail _ mem)
    exact ⟨_, .cons first rest⟩

/-- Where the walk ends no cycle can be reached. -/
theorem acc (visits : Visits graph roots order) :
    ∀ root ∈ roots, Acc (fun y x => Successor graph x y) root := by
  induction visits with
  | nil => simp
  | @cons root roots _ _ _ _ ihBelow ihBehind =>
    exact List.forall_mem_cons.mpr ⟨⟨_, fun next step => ihBelow next step⟩, ihBehind⟩

end Visits

theorem not_transGen_of_acc {r : α → α → Prop} {x : α} (accessible : Acc (fun y x => r x y) x) :
    ¬ Relation.TransGen r x x := by
  intro cycle
  have back : Relation.TransGen (fun y x => r x y) x x := Relation.transGen_swap.mp cycle
  induction accessible.transGen with
  | intro x _ ih => exact ih x back (accessible.inv_of_transGen back) cycle back

/-! ## One more edge -/

variable {r r' : α → α → Prop} {source target : α}

theorem transGen_addEdge (added : ∀ x y, r' x y ↔ r x y ∨ (x = source ∧ y = target)) {x y : α} :
    Relation.TransGen r' x y ↔ Relation.TransGen r x y ∨
      (Relation.ReflTransGen r x source ∧ Relation.ReflTransGen r target y) := by
  constructor
  · intro path
    induction path with
    | single step =>
      rcases (added _ _).mp step with old | ⟨rfl, rfl⟩
      · exact .inl (.single old)
      · exact .inr ⟨.refl, .refl⟩
    | tail _ step ih =>
      rcases (added _ _).mp step with old | ⟨rfl, rfl⟩
      · rcases ih with before | ⟨toSource, fromTarget⟩
        · exact .inl (before.tail old)
        · exact .inr ⟨toSource, fromTarget.tail old⟩
      · rcases ih with before | ⟨toSource, _⟩
        · exact .inr ⟨before.to_reflTransGen, .refl⟩
        · exact .inr ⟨toSource, .refl⟩
  · have old : r ≤ r' := fun x y step => (added x y).mpr (.inl step)
    rintro (path | ⟨toSource, fromTarget⟩)
    · exact Relation.TransGen.mono old _ _ path
    · have edge : r' source target := (added _ _).mpr (.inr ⟨rfl, rfl⟩)
      exact Relation.TransGen.trans_right (Relation.ReflTransGen.mono old _ _ toSource)
        (Relation.TransGen.head' edge (Relation.ReflTransGen.mono old _ _ fromTarget))

end PhpExts.Library
