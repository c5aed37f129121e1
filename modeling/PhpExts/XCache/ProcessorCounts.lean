import PhpExts.XCache.ProcessorRestore
import Mathlib

/-!
# The reference counts of what has been restored

Both passes copy `refcount` with the rest of a zval, so that a restored zval has the count that
the original had when it was stored, for whatever referred to it then. In the restored graph a zval
is referred to from the copy of the root and from the copies of what the root leads to, of which the
root itself is one where it is met again. The counts are right exactly if nothing else referred to
the originals (`counted_iff`), and then the destruction of the root frees each zval once where no
zval leads to itself (`destroyed_iff`).
-/

namespace PhpExts.XCache.Processor

open Function (update update_of_ne update_self)

/-- The positions that lead to a zval: an array that can be reached, and a place in it. -/
def positions (heap : Heap) (root a : Nat) : Set (Nat × Nat) :=
  { place | heap.Reaches root place.1 ∧ (heap.elements place.1)[place.2]? = some a }

def Counted (heap : Heap) (root : Nat) : Prop :=
  ∀ a zval, heap.Reaches root a → a ≠ root → heap a = some zval →
    zval.refcount = (positions heap root a).ncard

def Heap.Below (heap : Heap) (root a : Nat) : Prop :=
  Relation.TransGen (fun a b => b ∈ heap.elements a) root a

/-- The positions that lead to a zval, in the root or in something that the root leads to. A
root that is met again is both. -/
def places (heap : Heap) (root a : Nat) : Set (Option Nat × Nat) :=
  { place | (heap.elements (place.1.getD root))[place.2]? = some a ∧
    ∀ b, place.1 = some b → heap.Below root b }

def Unshared (heap : Heap) (root : Nat) : Prop :=
  ∀ a zval, heap.Below root a → heap a = some zval →
    zval.refcount = (places heap root a).ncard

section

variable {heap : Heap} {root a b : Nat}

theorem Heap.Below.reaches (below : heap.Below root a) : heap.Reaches root a :=
  Relation.TransGen.to_reflTransGen below

theorem Heap.Below.step (below : heap.Below root a) (edge : b ∈ heap.elements a) :
    heap.Below root b := Relation.TransGen.tail below edge

theorem Heap.Reaches.below (reaches : heap.Reaches root a) (edge : b ∈ heap.elements a) :
    heap.Below root b := Relation.TransGen.tail' reaches edge

theorem Heap.Reaches.root_or_below (reaches : heap.Reaches root a) :
    a = root ∨ heap.Below root a := by
  rcases Relation.reflTransGen_iff_eq_or_transGen.mp reaches with same | below
  · exact .inl same
  · exact .inr below

end

/-- A copy of a root and of what it leads to. Where the original is met again there is a second
copy of it. -/
structure Unrolls (heap : Heap) (root : Nat) (heap' : Heap) (root' : Nat) (map : Nat → Nat) :
    Prop where
  injective : ∀ a b, heap.Below root a → heap.Below root b → map a = map b → a = b
  away : ∀ a, heap.Below root a → map a ≠ root'
  fromRoot : heap'.elements root' = (heap.elements root).map map
  cells : ∀ a, heap.Below root a → ∃ zval zval', heap a = some zval ∧
    heap' (map a) = some zval' ∧ zval'.refcount = zval.refcount ∧
      zval'.elements = zval.elements.map map

section

variable {heap heap' : Heap} {root root' : Nat} {map : Nat → Nat}

theorem Unrolls.elements (unrolls : Unrolls heap root heap' root' map) {a : Nat}
    (below : heap.Below root a) : heap'.elements (map a) = (heap.elements a).map map := by
  obtain ⟨zval, zval', cell, copy, -, elements⟩ := unrolls.cells a below
  rw [elements_of_cell copy, elements_of_cell cell, elements]

theorem Unrolls.reaches (unrolls : Unrolls heap root heap' root' map) {x : Nat} :
    heap'.Reaches root' x ↔ x = root' ∨ ∃ a, heap.Below root a ∧ map a = x := by
  constructor
  · intro reaches
    induction reaches with
    | refl => exact .inl rfl
    | tail _ edge ih =>
      rcases ih with rfl | ⟨a, below, rfl⟩
      · rw [unrolls.fromRoot] at edge
        obtain ⟨b, isElement, same⟩ := List.mem_map.mp edge
        exact .inr ⟨b, .single isElement, same⟩
      · rw [unrolls.elements below] at edge
        obtain ⟨b, isElement, same⟩ := List.mem_map.mp edge
        exact .inr ⟨b, below.step isElement, same⟩
  · rintro (rfl | ⟨a, below, rfl⟩)
    · exact .refl
    · induction below with
      | single edge =>
        refine Heap.Reaches.step .refl ?_
        rw [unrolls.fromRoot]
        exact List.mem_map_of_mem edge
      | tail before edge ih =>
        refine ih.step ?_
        rw [unrolls.elements before]
        exact List.mem_map_of_mem edge

theorem Unrolls.positions_ncard (unrolls : Unrolls heap root heap' root' map) {a : Nat}
    (below : heap.Below root a) :
    (positions heap' root' (map a)).ncard = (places heap root a).ncard := by
  -- a place leads to the copy just if it leads to the original
  have leads {b i : Nat} (inside : ∀ c ∈ heap.elements b, heap.Below root c) :
      ((heap.elements b).map map)[i]? = some (map a) ↔ (heap.elements b)[i]? = some a := by
    rw [List.getElem?_map, Option.map_eq_some_iff]
    constructor
    · rintro ⟨c, isElement, same⟩
      rw [isElement, unrolls.injective c a (inside c (List.mem_of_getElem? isElement)) below same]
    · exact fun isElement => ⟨a, isElement, rfl⟩
  have image : positions heap' root' (map a) =
      (fun place : Option Nat × Nat => ((place.1.map map).getD root', place.2)) ''
        places heap root a := by
    ext ⟨x, i⟩
    constructor
    · rintro ⟨reaches, leadsTo⟩
      rcases unrolls.reaches.mp reaches with rfl | ⟨b, belowB, rfl⟩
      · rw [unrolls.fromRoot, leads fun c edge => .single edge] at leadsTo
        exact ⟨(none, i), ⟨leadsTo, nofun⟩, rfl⟩
      · rw [unrolls.elements belowB, leads fun c edge => belowB.step edge] at leadsTo
        exact ⟨(some b, i), ⟨leadsTo, fun _ same => Option.some.inj same ▸ belowB⟩, rfl⟩
    · rintro ⟨⟨_ | b, j⟩, ⟨leadsTo, belowB⟩, same⟩
      · obtain ⟨rfl, rfl⟩ := Prod.mk.inj same
        refine ⟨.refl, ?_⟩
        change (heap'.elements root')[j]? = _
        rw [unrolls.fromRoot]
        exact (leads fun c edge => .single edge).mpr leadsTo
      · obtain ⟨rfl, rfl⟩ := Prod.mk.inj same
        refine ⟨unrolls.reaches.mpr (.inr ⟨b, belowB b rfl, rfl⟩), ?_⟩
        change (heap'.elements (map b))[j]? = _
        rw [unrolls.elements (belowB b rfl)]
        exact (leads fun c edge => (belowB b rfl).step edge).mpr leadsTo
  rw [image, Set.InjOn.ncard_image]
  rintro ⟨_ | b, i⟩ ⟨-, below⟩ ⟨_ | c, j⟩ ⟨-, below'⟩ same
  all_goals obtain ⟨first, rfl⟩ := Prod.mk.inj same
  · rfl
  · exact absurd first.symm (unrolls.away c (below' c rfl))
  · exact absurd first (unrolls.away b (below b rfl))
  · exact congrArg (fun x => (some x, i))
      (unrolls.injective b c (below b rfl) (below' c rfl) first)

theorem Unrolls.counted_iff (unrolls : Unrolls heap root heap' root' map) :
    Counted heap' root' ↔ Unshared heap root := by
  constructor
  · intro counted a zval below cell
    obtain ⟨original, zval', isOriginal, copy, same, -⟩ := unrolls.cells a below
    obtain rfl := Option.some.inj (isOriginal.symm.trans cell)
    rw [← same, ← unrolls.positions_ncard below]
    exact counted _ zval' (unrolls.reaches.mpr (.inr ⟨a, below, rfl⟩)) (unrolls.away a below) copy
  · intro unshared x zval' reaches away copy
    rcases unrolls.reaches.mp reaches with rfl | ⟨a, below, rfl⟩
    · exact absurd rfl away
    · obtain ⟨zval, original', cell, isCopy, same, -⟩ := unrolls.cells a below
      obtain rfl := Option.some.inj (isCopy.symm.trans copy)
      rw [same, unrolls.positions_ncard below]
      exact unshared a zval below cell

theorem unrolls_of_relation (relation : Nat → Nat → Prop)
    (start : List.Forall₂ relation (heap.elements root) (heap'.elements root'))
    (functional : ∀ a x y, relation a x → relation a y → x = y)
    (injective : ∀ a b x, relation a x → relation b x → a = b)
    (away : ∀ a x, relation a x → x ≠ root')
    (step : ∀ a x, relation a x → ∃ zval zval', heap a = some zval ∧ heap' x = some zval' ∧
      zval'.refcount = zval.refcount ∧ List.Forall₂ relation zval.elements zval'.elements) :
    ∃ map, Unrolls heap root heap' root' map := by
  classical
  let map : Nat → Nat := fun a => if h : ∃ x, relation a x then h.choose else 0
  have isMap : ∀ a x, relation a x → map a = x := by
    intro a x related
    have some : ∃ x, relation a x := ⟨x, related⟩
    simp only [map, dif_pos some]
    exact functional a _ x some.choose_spec related
  have mapped {as xs : List Nat} (pairs : List.Forall₂ relation as xs) : xs = as.map map :=
    (List.forall₂_eq_eq_eq ▸ List.forall₂_map_left_iff.mpr (pairs.imp isMap) : _ = _).symm
  have total : ∀ a, heap.Below root a → relation a (map a) := by
    intro a below
    induction below with
    | single edge =>
      obtain ⟨x, -, related⟩ := exists_right start edge
      rwa [isMap _ x related]
    | tail _ edge ih =>
      obtain ⟨zval, zval', cell, -, -, pairs⟩ := step _ _ ih
      rw [elements_of_cell cell] at edge
      obtain ⟨x, -, related⟩ := exists_right pairs edge
      rwa [isMap _ x related]
  refine ⟨map, fun a b belowA belowB same => ?_, fun a below => away a _ (total a below),
    mapped start, fun a below => ?_⟩
  · exact injective a b _ (total a belowA) (same ▸ total b belowB)
  · obtain ⟨zval, zval', cell, copy, same, pairs⟩ := step _ _ (total a below)
    exact ⟨zval, zval', cell, copy, same, mapped pairs⟩

theorem Isomorphic.unrolls (graph : Graph heap) (inside : root ∈ graph.nodes) {heap'' : Heap}
    {root'' : Nat} (isomorphic : Isomorphic heap root heap' root')
    (second : Unrolls heap' root' heap'' root'' map) :
    ∃ map', Unrolls heap root heap'' root'' map' := by
  obtain ⟨first, isRoot, injective, values⟩ := isomorphic
  have present : ∀ a, heap.Reaches root a → (heap a).isSome := fun a reaches =>
    graph.allocated a (graph.cell_of_reaches inside reaches)
  have edges := elements_map present values
  have fromRoot : heap'.elements root' = (heap.elements root).map first :=
    isRoot ▸ edges root .refl
  have below' : ∀ a, heap.Below root a → heap'.Below root' (first a) := by
    intro a below
    induction below with
    | single edge => exact .single (fromRoot ▸ List.mem_map_of_mem edge)
    | tail before edge ih =>
      exact ih.step (edges _ (Heap.Below.reaches before) ▸ List.mem_map_of_mem edge)
  refine ⟨map ∘ first, fun a b belowA belowB same => ?_, fun a below => ?_, ?_,
    fun a below => ?_⟩
  · exact injective a b belowA.reaches belowB.reaches
      (second.injective _ _ (below' a belowA) (below' b belowB) same)
  · exact second.away _ (below' a below)
  · rw [second.fromRoot, fromRoot, List.map_map]
  · obtain ⟨zval, cell⟩ := Option.isSome_iff_exists.mp (present a below.reaches)
    obtain ⟨zval', copy, same, elements⟩ := values a below.reaches zval cell
    obtain ⟨original, zval'', isOriginal, copy', count, elements'⟩ :=
      second.cells _ (below' a below)
    obtain rfl := Option.some.inj (isOriginal.symm.trans copy)
    exact ⟨zval, zval'', cell, copy', count.trans same.1,
      by rw [elements', elements, List.map_map]⟩

end

/-! ## What is restored -/

section

variable {heap : Heap} {graph : Graph heap} {src dst word n : Nat} {zval zval' : Zval}
  {copied : Copied}

theorem unrolls_of_result (inside : src ∈ graph.nodes) (cell : heap src = some zval)
    (apart : zval.elements = [] ∨ word ∉ graph.nodes) (below : dst < n)
    (result : Result heap graph.nodes [word] ⟨[(word, dst)], fun _ => none, n⟩ zval.elements
      copied zval'.elements) :
    ∃ map, Unrolls heap src (update copied.copies dst (some zval')) dst map := by
  have filled : update copied.copies dst (some zval') dst = some zval' :=
    update_self _ _ _
  -- the copy of an element is one that was made, and not the one of the root
  have made {a b d : Nat} (reaches : heap.Reaches src a) (edge : b ∈ heap.elements a)
      (pair : (b, d) ∈ copied.table) :
      heap.Below src b ∧ b ≠ word ∧ n ≤ d ∧ (b, d) ∈ copied.table := by
    have node := graph.cell_of_reaches inside (reaches.step edge)
    have outside := apart_of_element cell apart reaches edge
    refine ⟨reaches.below edge, fun isWord => outside (isWord ▸ node), ?_, pair⟩
    rcases result.new (b, d) pair with isRoot | ⟨later, -⟩
    · obtain ⟨rfl, -⟩ := Prod.mk.inj (List.mem_singleton.mp isRoot)
      exact absurd node outside
    · exact later
  refine unrolls_of_relation
    (fun a x => heap.Below src a ∧ a ≠ word ∧ n ≤ x ∧ (a, x) ∈ copied.table) ?_ ?_ ?_ ?_ ?_
  · rw [elements_of_cell cell, elements_of_cell filled]
    refine (forall₂_mem result.pairs).imp fun b d isPair => ?_
    exact made .refl (elements_of_cell cell ▸ isPair.1) isPair.2
  · rintro a x y ⟨-, -, -, pair⟩ ⟨-, -, -, pair'⟩
    exact result.copying.functional pair pair'
  · rintro a b x ⟨-, -, -, pair⟩ ⟨-, -, -, pair'⟩
    exact result.copying.injective pair pair'
  · rintro a x ⟨-, -, later, -⟩
    omega
  · rintro a x ⟨belowA, notWord, later, pair⟩
    obtain ⟨original, copy, isOriginal, isCopy, keys, pairs⟩ :=
      result.copying.values (a, x) pair (by simpa using notWord)
    refine ⟨original, copy, isOriginal, ?_, keys.1, ?_⟩
    · rw [update_of_ne (by omega)]
      exact isCopy
    · refine (forall₂_mem pairs).imp fun b d isPair => ?_
      exact made belowA.reaches (elements_of_cell isOriginal ▸ isPair.1) isPair.2

end

/-- What is left of a destruction: the counts, the zvals that have been freed, and those whose
reference is to be given up, in order. -/
structure Destruction where
  counts : Nat → Nat
  freed : List Nat
  pending : List Nat

/-- `zval_ptr_dtor`: with the last reference a zval is freed, and its elements come next. -/
def Destruction.step (heap : Heap) (d : Destruction) : Destruction :=
  match d.pending with
  | [] => d
  | a :: rest =>
    if d.counts a = 1 then
      ⟨update d.counts a 0, a :: d.freed, heap.elements a ++ rest⟩
    else ⟨update d.counts a (d.counts a - 1), d.freed, rest⟩

/-- `zval_dtor` of the root. -/
def Destruction.start (heap : Heap) (root : Nat) : Destruction :=
  ⟨fun a => ((heap a).map Zval.refcount).getD 0, [root], heap.elements root⟩

def Destroyed (heap : Heap) (root : Nat) : Prop :=
  ∃ n, let d := (Destruction.step heap)^[n] (.start heap root)
    d.pending = [] ∧ d.freed.Nodup ∧ ∀ a, a ∈ d.freed ↔ heap.Reaches root a

def Acyclic (heap : Heap) (root : Nat) : Prop := ∀ a, heap.Reaches root a → ¬ heap.Below a a

section

theorem ncard_count (l : List Nat) (a : Nat) :
    { i : Nat | l[i]? = some a }.Finite ∧ { i : Nat | l[i]? = some a }.ncard = l.count a := by
  induction l with
  | nil => simp
  | cons b l ih =>
    obtain ⟨finite, card⟩ := ih
    have later : { i : Nat | (b :: l)[i]? = some a } =
        { i : Nat | i = 0 ∧ b = a } ∪ Nat.succ '' { i : Nat | l[i]? = some a } := by
      ext i
      cases i with
      | zero => simp
      | succ i => simp
    rw [later]
    by_cases same : b = a
    · have first : { i : Nat | i = 0 ∧ b = a } = {0} := by
        ext i
        simp [same]
      rw [first, Set.singleton_union, same, List.count_cons_self]
      refine ⟨(finite.image _).insert 0, ?_⟩
      rw [Set.ncard_insert_of_notMem (by simp) (finite.image _),
        Set.ncard_image_of_injective _ Nat.succ_injective, card]
    · have first : { i : Nat | i = 0 ∧ b = a } = ∅ := by
        ext i
        simp [same]
      rw [first, Set.empty_union, List.count_cons_of_ne same]
      exact ⟨finite.image _, by rw [Set.ncard_image_of_injective _ Nat.succ_injective, card]⟩

/-- How many elements of some zvals a zval is. -/
def references (heap : Heap) (zvals : Finset Nat) (a : Nat) : Nat :=
  ∑ x ∈ zvals, (heap.elements x).count a

theorem ncard_references (heap : Heap) (zvals : Finset Nat) (a : Nat) :
    { place : Nat × Nat | place.1 ∈ zvals ∧ (heap.elements place.1)[place.2]? = some a }.Finite ∧
      { place : Nat × Nat | place.1 ∈ zvals ∧
        (heap.elements place.1)[place.2]? = some a }.ncard = references heap zvals a := by
  classical
  induction zvals using Finset.induction_on with
  | empty => simp [references]
  | @insert x zvals fresh ih =>
    obtain ⟨finite, card⟩ := ih
    have split : { place : Nat × Nat | place.1 ∈ insert x zvals ∧
        (heap.elements place.1)[place.2]? = some a } =
        Prod.mk x '' { i : Nat | (heap.elements x)[i]? = some a } ∪ { place : Nat × Nat |
          place.1 ∈ zvals ∧ (heap.elements place.1)[place.2]? = some a } := by
      ext ⟨y, i⟩
      simp only [Finset.mem_insert, Set.mem_ofPred_eq, Set.mem_union, Set.mem_image,
        Prod.mk.injEq]
      constructor
      · rintro ⟨rfl | mem, leads⟩
        · exact .inl ⟨i, leads, rfl, rfl⟩
        · exact .inr ⟨mem, leads⟩
      · rintro (⟨_, leads, rfl, rfl⟩ | ⟨mem, leads⟩)
        · exact ⟨.inl rfl, leads⟩
        · exact ⟨.inr mem, leads⟩
    have here := ncard_count (heap.elements x) a
    have apart : Disjoint (Prod.mk x '' { i : Nat | (heap.elements x)[i]? = some a })
        { place : Nat × Nat | place.1 ∈ zvals ∧
          (heap.elements place.1)[place.2]? = some a } := by
      rw [Set.disjoint_left]
      rintro _ ⟨i, -, rfl⟩ ⟨mem, -⟩
      exact fresh mem
    rw [split, Set.ncard_union_eq apart (here.1.image _) finite,
      Set.ncard_image_of_injective _ (Prod.mk_right_injective x), here.2, card, references,
      references, Finset.sum_insert fresh]
    exact ⟨(here.1.image _).union finite, rfl⟩

end

section

variable {heap : Heap} {root : Nat} {reached : Finset Nat} {d : Destruction}

structure Reached (heap : Heap) (root : Nat) (reached : Finset Nat) : Prop where
  mem : ∀ a, a ∈ reached ↔ heap.Reaches root a
  away : ∀ a ∈ reached, root ∉ heap.elements a

def live (reached : Finset Nat) (freed : List Nat) : Finset Nat := {a ∈ reached | a ∉ freed}

theorem mem_live {freed : List Nat} {a : Nat} :
    a ∈ live reached freed ↔ a ∈ reached ∧ a ∉ freed := Finset.mem_filter

theorem live_cons (freed : List Nat) (a : Nat) :
    live reached (a :: freed) = (live reached freed).erase a := by
  ext b
  rw [mem_live, Finset.mem_erase, mem_live, List.mem_cons, not_or]
  tauto

theorem Reached.element (whole : Reached heap root reached) {a b : Nat} (inside : a ∈ reached)
    (edge : b ∈ heap.elements a) : b ∈ reached ∧ b ≠ root := by
  refine ⟨(whole.mem b).mpr (((whole.mem a).mp inside).step edge), ?_⟩
  rintro rfl
  exact whole.away a inside edge

/-- In the course of a destruction a count is that of the references that are left. What has been
freed has none, and does not lead to itself. -/
structure Destroying (heap : Heap) (root : Nat) (reached : Finset Nat) (d : Destruction) :
    Prop where
  nodup : d.freed.Nodup
  root_freed : root ∈ d.freed
  inside : ∀ a ∈ d.freed, a ∈ reached
  pending : ∀ a ∈ d.pending, a ∈ reached ∧ a ≠ root
  counts : ∀ a ∈ reached, a ≠ root →
    d.counts a = references heap (live reached d.freed) a + d.pending.count a
  held : ∀ a ∈ reached, a ≠ root → (d.counts a = 0 ↔ a ∈ d.freed)
  straight : ∀ a ∈ d.freed, a ≠ root → ¬ heap.Below a a

def Destruction.left (heap : Heap) (reached : Finset Nat) (d : Destruction) : Nat :=
  d.pending.length + ∑ x ∈ live reached d.freed, (heap.elements x).length

theorem count_le_references {zvals : Finset Nat} {x : Nat} (inside : x ∈ zvals) (a : Nat) :
    (heap.elements x).count a ≤ references heap zvals a :=
  Finset.single_le_sum (f := fun x => (heap.elements x).count a) (fun _ _ => Nat.zero_le _) inside

theorem references_erase {zvals : Finset Nat} {x : Nat} (inside : x ∈ zvals) (a : Nat) :
    references heap zvals a = (heap.elements x).count a + references heap (zvals.erase x) a :=
  (Finset.add_sum_erase zvals (fun x => (heap.elements x).count a) inside).symm

theorem Destroying.step (whole : Reached heap root reached)
    (destroying : Destroying heap root reached d) {a : Nat} {rest : List Nat}
    (isPending : d.pending = a :: rest) : Destroying heap root reached (d.step heap) ∧
      (d.step heap).left heap reached + 1 = d.left heap reached := by
  obtain ⟨inside, away⟩ := destroying.pending a (isPending ▸ .head _)
  have counted := destroying.counts a inside away
  rw [isPending, List.count_cons_self] at counted
  have unfreed : a ∉ d.freed := fun isFreed => by
    have none := (destroying.held a inside away).mpr isFreed
    omega
  have isLive := mem_live.mpr ⟨inside, unfreed⟩
  rw [Destruction.step, isPending]
  by_cases last : d.counts a = 1
  · have noReferences : references heap (live reached d.freed) a = 0 := by omega
    have noElement : (heap.elements a).count a = 0 :=
      Nat.eq_zero_of_le_zero (noReferences ▸ count_le_references isLive a)
    simp only [if_pos last]
    refine ⟨⟨List.nodup_cons.mpr ⟨unfreed, destroying.nodup⟩,
      .tail _ destroying.root_freed, ?_, ?_, ?_, ?_, ?_⟩, ?_⟩
    · exact List.forall_mem_cons.mpr ⟨inside, destroying.inside⟩
    · rw [List.forall_mem_append]
      exact ⟨fun b edge => whole.element inside edge,
        fun b mem => destroying.pending b (isPending ▸ .tail _ mem)⟩
    · intro b insideB awayB
      dsimp only
      rw [live_cons, List.count_append]
      have split := @references_erase heap _ _ isLive b
      by_cases same : b = a
      · subst same
        rw [update_self]
        omega
      · have before := destroying.counts b insideB awayB
        rw [isPending, List.count_cons_of_ne (Ne.symm same)] at before
        rw [update_of_ne same]
        omega
    · intro b insideB awayB
      dsimp only
      by_cases same : b = a
      · subst same
        rw [update_self]
        exact iff_of_true rfl (.head _)
      · rw [update_of_ne same, List.mem_cons, or_iff_right same]
        exact destroying.held b insideB awayB
    · rw [List.forall_mem_cons]
      refine ⟨fun _ cycle => ?_, destroying.straight⟩
      -- what leads to it has been freed, and would lead to itself too
      obtain ⟨x, reaches, edge⟩ := Relation.TransGen.tail'_iff.mp cycle
      have insideX : x ∈ reached :=
        (whole.mem x).mpr (Relation.ReflTransGen.trans ((whole.mem a).mp inside) reaches)
      have isFreed : x ∈ d.freed := by
        by_contra unfreedX
        have le := @count_le_references heap _ _ (mem_live.mpr ⟨insideX, unfreedX⟩) a
        have pos := List.count_pos_iff.mpr edge
        omega
      have awayX : x ≠ root := by
        rintro rfl
        rcases Relation.reflTransGen_iff_eq_or_transGen.mp reaches with same | below
        · exact away same.symm
        · obtain ⟨y, reachesY, edgeY⟩ := Relation.TransGen.tail'_iff.mp below
          exact whole.away y ((whole.mem y).mpr
            (Relation.ReflTransGen.trans ((whole.mem a).mp inside) reachesY)) edgeY
      exact destroying.straight x isFreed awayX (Relation.TransGen.head' edge reaches)
    · simp only [Destruction.left, live_cons, isPending, List.length_append, List.length_cons]
      have split := Finset.add_sum_erase (live reached d.freed)
        (fun x => (heap.elements x).length) isLive
      omega
  · simp only [if_neg last]
    refine ⟨⟨destroying.nodup, destroying.root_freed, destroying.inside, fun b mem =>
      destroying.pending b (isPending ▸ .tail _ mem), ?_, ?_,
      destroying.straight⟩, ?_⟩
    · intro b insideB awayB
      dsimp only
      by_cases same : b = a
      · subst same
        rw [update_self]
        omega
      · have before := destroying.counts b insideB awayB
        rw [isPending, List.count_cons_of_ne (Ne.symm same)] at before
        rwa [update_of_ne same]
    · intro b insideB awayB
      dsimp only
      by_cases same : b = a
      · subst same
        rw [update_self]
        exact iff_of_false (by omega) unfreed
      · rw [update_of_ne same]
        exact destroying.held b insideB awayB
    · simp only [Destruction.left, isPending, List.length_cons]
      omega

theorem Destroying.finishes (whole : Reached heap root reached)
    (destroying : Destroying heap root reached d) :
    ∃ n, ((Destruction.step heap)^[n] d).pending = [] ∧
      Destroying heap root reached ((Destruction.step heap)^[n] d) := by
  induction left : d.left heap reached generalizing d with
  | zero =>
    refine ⟨0, List.length_eq_zero_iff.mp ?_, destroying⟩
    have sum := left
    rw [Destruction.left] at sum
    exact Nat.eq_zero_of_add_eq_zero_right sum
  | succ left ih =>
    cases isPending : d.pending with
    | nil => exact ⟨0, isPending, destroying⟩
    | cons a rest =>
      obtain ⟨next, less⟩ := destroying.step whole isPending
      obtain ⟨n, finished, last⟩ := ih next (by omega)
      exact ⟨n + 1, finished, last⟩

theorem Destroying.all_freed (whole : Reached heap root reached)
    (destroying : Destroying heap root reached d) (finished : d.pending = [])
    (acyclic : Acyclic heap root) {a : Nat} (inside : a ∈ reached) : a ∈ d.freed := by
  by_contra unfreed
  -- of what is left something is not led to by the rest
  have wellFounded : WellFounded fun x y : live reached d.freed => heap.Below x y := by
    have : IsTrans (live reached d.freed) fun x y => heap.Below x y :=
      ⟨fun _ _ _ => Relation.TransGen.trans⟩
    have : Std.Irrefl fun x y : live reached d.freed => heap.Below x y :=
      ⟨fun x => acyclic x ((whole.mem x).mp (mem_live.mp x.2).1)⟩
    exact Finite.wellFounded_of_trans_of_irrefl _
  obtain ⟨⟨b, isLive⟩, -, first⟩ := wellFounded.has_min Set.univ
    ⟨⟨a, mem_live.mpr ⟨inside, unfreed⟩⟩, Set.mem_univ _⟩
  obtain ⟨insideB, unfreedB⟩ := mem_live.mp isLive
  have away : b ≠ root := by
    rintro rfl
    exact unfreedB destroying.root_freed
  have counted := destroying.counts b insideB away
  rw [finished, List.count_nil, Nat.add_zero] at counted
  have some : references heap (live reached d.freed) b ≠ 0 := fun none =>
    unfreedB ((destroying.held b insideB away).mp (counted.trans none))
  obtain ⟨x, isLiveX, notZero⟩ := Finset.exists_ne_zero_of_sum_ne_zero some
  have edge := List.count_pos_iff.mp (Nat.pos_of_ne_zero notZero)
  exact first ⟨x, isLiveX⟩ (Set.mem_univ _) (Relation.TransGen.single edge)

theorem Destroying.iterate (whole : Reached heap root reached)
    (destroying : Destroying heap root reached d) (n : Nat) :
    Destroying heap root reached ((Destruction.step heap)^[n] d) := by
  induction n generalizing d with
  | zero => exact destroying
  | succ n ih =>
    refine ih ?_
    cases isPending : d.pending with
    | nil => rwa [Destruction.step, isPending]
    | cons a rest => exact (destroying.step whole isPending).1

theorem positions_references (whole : Reached heap root reached) (a : Nat) :
    (positions heap root a).ncard = references heap reached a := by
  rw [← (ncard_references heap reached a).2, positions]
  simp only [whole.mem]

theorem Destroying.begins (whole : Reached heap root reached)
    (present : ∀ a ∈ reached, (heap a).isSome) (counted : Counted heap root) :
    Destroying heap root reached (.start heap root) := by
  have rootInside : root ∈ reached := (whole.mem root).mpr .refl
  have count {a : Nat} (inside : a ∈ reached) (away : a ≠ root) :
      (Destruction.start heap root).counts a = references heap reached a := by
    obtain ⟨zval, cell⟩ := Option.isSome_iff_exists.mp (present a inside)
    rw [← positions_references whole, ← counted a zval ((whole.mem a).mp inside) away cell]
    change ((heap a).map Zval.refcount).getD 0 = _
    rw [cell]
    rfl
  refine ⟨List.nodup_singleton root, List.mem_singleton_self root, ?_, ?_, ?_, ?_, ?_⟩
  · intro a mem
    rwa [List.mem_singleton.mp mem]
  · exact fun a edge => whole.element rootInside edge
  · intro a inside away
    have all : live reached [] = reached := Finset.filter_true_of_mem fun _ _ => List.not_mem_nil
    have split := @references_erase heap _ _ rootInside a
    rw [count inside away]
    change _ = references heap (live reached [root]) a + (heap.elements root).count a
    rw [live_cons, all]
    omega
  · intro a inside away
    refine iff_of_false (fun none => ?_) fun mem => away (List.mem_singleton.mp mem)
    -- something leads to it
    rcases ((whole.mem a).mp inside).root_or_below with same | below
    · exact away same
    · obtain ⟨x, reaches, edge⟩ := Relation.TransGen.tail'_iff.mp below
      have le := @count_le_references heap _ _ ((whole.mem x).mpr reaches) a
      have pos := List.count_pos_iff.mpr edge
      rw [count inside away] at none
      omega
  · intro a mem away
    exact absurd (List.mem_singleton.mp mem) away

theorem destroyed_iff (whole : Reached heap root reached)
    (present : ∀ a ∈ reached, (heap a).isSome) (counted : Counted heap root) :
    Destroyed heap root ↔ Acyclic heap root := by
  have begins := Destroying.begins whole present counted
  constructor
  · rintro ⟨n, -, -, freed⟩ a reaches cycle
    by_cases isRoot : a = root
    · subst isRoot
      obtain ⟨x, reachesX, edge⟩ := Relation.TransGen.tail'_iff.mp cycle
      exact whole.away x ((whole.mem x).mpr reachesX) edge
    · exact (begins.iterate whole n).straight a ((freed a).mpr reaches) isRoot cycle
  · intro acyclic
    obtain ⟨n, finished, last⟩ := begins.finishes whole
    refine ⟨n, finished, last.nodup, fun a =>
      ⟨fun mem => (whole.mem a).mp (last.inside a mem), fun reaches =>
        last.all_freed whole finished acyclic ((whole.mem a).mpr reaches)⟩⟩

end

/-! ## Storing and restoring -/

section

variable {heap heap' : Heap} {root root' : Nat} {map : Nat → Nat}

theorem Unrolls.below (unrolls : Unrolls heap root heap' root' map) {a : Nat}
    (inside : heap.Below root a) {y : Nat} :
    heap'.Below (map a) y ↔ ∃ b, heap.Below a b ∧ map b = y := by
  have inside' {b : Nat} (below : heap.Below a b) : heap.Below root b :=
    Relation.TransGen.trans inside below
  constructor
  · intro below
    induction below with
    | single edge =>
      rw [unrolls.elements inside] at edge
      obtain ⟨b, isElement, same⟩ := List.mem_map.mp edge
      exact ⟨b, .single isElement, same⟩
    | tail _ edge ih =>
      obtain ⟨b, below, rfl⟩ := ih
      rw [unrolls.elements (inside' below)] at edge
      obtain ⟨c, isElement, same⟩ := List.mem_map.mp edge
      exact ⟨c, below.step isElement, same⟩
  · rintro ⟨b, below, rfl⟩
    induction below with
    | single edge =>
      refine Relation.TransGen.single ?_
      rw [unrolls.elements inside]
      exact List.mem_map_of_mem edge
    | tail before edge ih =>
      refine Heap.Below.step ih ?_
      rw [unrolls.elements (inside' before)]
      exact List.mem_map_of_mem edge

theorem Unrolls.away_elements (unrolls : Unrolls heap root heap' root' map) {x : Nat}
    (reaches : heap'.Reaches root' x) : root' ∉ heap'.elements x := by
  intro edge
  rcases unrolls.reaches.mp reaches with rfl | ⟨a, below, rfl⟩
  · rw [unrolls.fromRoot] at edge
    obtain ⟨b, isElement, same⟩ := List.mem_map.mp edge
    exact unrolls.away b (.single isElement) same
  · rw [unrolls.elements below] at edge
    obtain ⟨b, isElement, same⟩ := List.mem_map.mp edge
    exact unrolls.away b (below.step isElement) same

theorem Unrolls.acyclic_iff (unrolls : Unrolls heap root heap' root' map) :
    Acyclic heap' root' ↔ Acyclic heap root := by
  constructor
  · intro acyclic a reaches cycle
    have below : heap.Below root a := by
      rcases reaches.root_or_below with rfl | below
      · exact cycle
      · exact below
    exact acyclic _ (unrolls.reaches.mpr (.inr ⟨a, below, rfl⟩))
      ((unrolls.below below).mpr ⟨a, cycle, rfl⟩)
  · intro acyclic x reaches cycle
    rcases unrolls.reaches.mp reaches with rfl | ⟨a, below, rfl⟩
    · obtain ⟨y, reachesY, edge⟩ := Relation.TransGen.tail'_iff.mp cycle
      exact unrolls.away_elements reachesY edge
    · obtain ⟨b, belowB, same⟩ := (unrolls.below below).mp cycle
      have isSame := unrolls.injective b a (Relation.TransGen.trans below belowB) below same
      exact acyclic a below.reaches (isSame ▸ belowB)

theorem Unrolls.reached (graph : Graph heap) (inside : root ∈ graph.nodes)
    (unrolls : Unrolls heap root heap' root' map) (present : (heap' root').isSome) :
    ∃ reached, Reached heap' root' reached ∧ ∀ a ∈ reached, (heap' a).isSome := by
  have finite : { x | heap'.Reaches root' x }.Finite := by
    refine ((graph.nodes.map map).finite_toSet.insert root').subset fun x reaches => ?_
    rcases unrolls.reaches.mp reaches with rfl | ⟨a, below, rfl⟩
    · exact Set.mem_insert _ _
    · exact Set.mem_insert_of_mem _
        (List.mem_map_of_mem (graph.cell_of_reaches inside below.reaches))
  refine ⟨finite.toFinset, ⟨fun a => finite.mem_toFinset, fun a mem => ?_⟩,
    fun a mem => ?_⟩
  · exact unrolls.away_elements (finite.mem_toFinset.mp mem)
  · rcases unrolls.reaches.mp (finite.mem_toFinset.mp mem) with rfl | ⟨b, below, rfl⟩
    · exact present
    · obtain ⟨-, zval', -, copy, -⟩ := unrolls.cells b below
      exact Option.isSome_iff_exists.mpr ⟨zval', copy⟩

end

theorem setThenGet_unrolls {heap : Heap} (sizes : Sizes) (graph : Graph heap) (block : Nat)
    (name : List UInt8) {value p dst : Nat} (inside : value ∈ graph.nodes) (below : dst < p) :
    ∃ heap' map,
      setThenGet sizes heap (graph.nodes.length + 1) block name value p dst = some heap' ∧
      (heap' dst).isSome ∧ Unrolls heap value heap' dst map := by
  obtain ⟨stored, graph', src, word, n, zval, zval', copied, gets, first, isSrc, cell, apart, low,
    -, result⟩ := setThenGet_copies sizes graph block name inside below
  obtain ⟨map, second⟩ := unrolls_of_result isSrc cell apart low result
  obtain ⟨map', unrolls⟩ := first.unrolls graph inside second
  exact ⟨_, map', gets, by rw [update_self]; rfl, unrolls⟩

/-- **The counts of a restored value are right if and only if nothing but the stored graph referred
to its zvals, and its destruction frees each zval once if and only if, with that, no zval leads to
itself.** -/
theorem setThenGet_counted_iff {heap : Heap} (sizes : Sizes) (graph : Graph heap) (block : Nat)
    (name : List UInt8) {value p dst : Nat} (inside : value ∈ graph.nodes) (below : dst < p) :
    ∃ heap', setThenGet sizes heap (graph.nodes.length + 1) block name value p dst = some heap' ∧
      (Counted heap' dst ↔ Unshared heap value) ∧
      (Counted heap' dst ∧ Destroyed heap' dst ↔ Unshared heap value ∧ Acyclic heap value) := by
  obtain ⟨heap', map, gets, present, unrolls⟩ :=
    setThenGet_unrolls sizes graph block name inside below
  obtain ⟨reached, whole, cells⟩ := unrolls.reached graph inside present
  refine ⟨heap', gets, unrolls.counted_iff, ?_⟩
  rw [← unrolls.counted_iff, ← unrolls.acyclic_iff]
  exact and_congr_right fun counted => destroyed_iff whole cells counted

/-- `array($x)` with `$x = "x"`: the variable refers to the string too. -/
def sharedHeap (refcount : Nat) : Heap
  | 1000 => some ⟨.array 2000 ⟨8, 7, 1, [⟨0, [], 1032⟩]⟩, 1, false⟩
  | 1032 => some ⟨.string 1064 [120], refcount, false⟩
  | _ => none

def sharedGraph (refcount : Nat) : Graph (sharedHeap refcount) where
  nodes := [1000, 1032]
  allocated := by
    intro a member
    rcases List.mem_cons.mp member with rfl | member
    · rfl
    · rw [List.mem_singleton.mp member]
      rfl
  initialised := by
    intro a member ht table count isRef cell uninitialised
    rcases List.mem_cons.mp member with rfl | member
    · cases cell
      cases uninitialised
    · rw [List.mem_singleton.mp member] at cell
      cases cell
  closed := by
    intro a member b edge
    rcases List.mem_cons.mp member with rfl | member
    · exact .tail _ edge
    · rw [List.mem_singleton.mp member] at edge
      cases edge

theorem places_shared (refcount : Nat) : places (sharedHeap refcount) 1000 1032 = {(none, 0)} := by
  have array {a b : Nat} (edge : b ∈ (sharedHeap refcount).elements a) : a = 1000 ∧ b = 1032 := by
    by_cases isArray : a = 1000
    · subst isArray
      exact ⟨rfl, List.mem_singleton.mp edge⟩
    · by_cases isString : a = 1032
      · subst isString
        cases edge
      · rw [Heap.elements, sharedHeap.eq_3 _ _ isArray isString] at edge
        cases edge
  ext ⟨x, i⟩
  rw [Set.mem_singleton_iff]
  constructor
  · rintro ⟨leads, below⟩
    cases x with
    | none =>
      cases i with
      | zero => rfl
      | succ i => cases leads
    | some b =>
      obtain ⟨rfl, -⟩ := array (List.mem_of_getElem? leads)
      obtain ⟨c, -, edge⟩ := Relation.TransGen.tail'_iff.mp (below _ rfl)
      cases (array edge).2
  · intro same
    obtain ⟨rfl, rfl⟩ := Prod.mk.inj same
    exact ⟨rfl, by rintro _ ⟨⟩⟩

/-- The restored string has two references and one position. -/
theorem setThenGet_not_counted : ¬ ∀ (sizes : Sizes) (heap : Heap) (graph : Graph heap)
    (block : Nat) (name : List UInt8) (value p dst : Nat), value ∈ graph.nodes → dst < p →
    ∃ heap', setThenGet sizes heap (graph.nodes.length + 1) block name value p dst = some heap' ∧
      Counted heap' dst := by
  intro counts
  obtain ⟨heap', gets, counted⟩ := counts sizes64 (sharedHeap 2) (sharedGraph 2) 4096 [120] 1000
    65560 65536 (by decide) (by decide)
  obtain ⟨restored, map, gets', -, unrolls⟩ := @setThenGet_unrolls (sharedHeap 2) sizes64
    (sharedGraph 2) 4096 [120] 1000 65560 65536 (by decide) (by decide)
  obtain rfl := Option.some.inj (gets.symm.trans gets')
  have two := unrolls.counted_iff.mp counted 1032 _ (.single (by decide)) rfl
  rw [places_shared, Set.ncard_singleton] at two
  cases two

theorem setThenGet_counted_iff_shared : ∃ heap',
    setThenGet sizes64 (sharedHeap 1) 3 4096 [120] 1000 65560 65536 = some heap' ∧
      (Counted heap' 65536 ↔ Unshared (sharedHeap 1) 1000) ∧
      (Counted heap' 65536 ∧ Destroyed heap' 65536 ↔
        Unshared (sharedHeap 1) 1000 ∧ Acyclic (sharedHeap 1) 1000) :=
  setThenGet_counted_iff sizes64 (sharedGraph 1) 4096 [120] (by decide) (by decide)

end PhpExts.XCache.Processor
