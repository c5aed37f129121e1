import PhpExts.XCache.ProcessorPasses
import Mathlib

/-!
# Storing a value and restoring it

The store pass makes an isomorphic graph (`storeEntryVar_copies`). The restore pass makes one if
the root is not met again: the root is entered in the table under a key that no zval has, and a
zval that leads back to the root leads to a second copy of it (`setThenGet_iff`).
-/

namespace PhpExts.XCache.Processor

open Function (update update_of_ne update_self)
open List (mem_map_of_mem not_mem_nil)

/-! ## Isomorphic graphs -/

def Heap.Reaches (heap : Heap) (root a : Nat) : Prop :=
  Relation.ReflTransGen (fun a b => b ∈ heap.elements a) root a

/-- A map of the zvals that can be reached, one to one, that keeps the root and the values: two
positions lead to one zval in the copy just when they do in the original. -/
def Isomorphic (heap : Heap) (root : Nat) (heap' : Heap) (root' : Nat) : Prop :=
  ∃ map : Nat → Nat, map root = root' ∧
    (∀ a b, heap.Reaches root a → heap.Reaches root b → map a = map b → a = b) ∧
    ∀ a, heap.Reaches root a → ∀ zval, heap a = some zval → ∃ zval',
      heap' (map a) = some zval' ∧ SameKeys zval zval' ∧
        zval'.elements = zval.elements.map map

section

variable {heap heap' heap'' : Heap} {root root' root'' : Nat}

theorem exists_right {α β : Type} {relation : α → β → Prop} {as : List α} {bs : List β} {a : α}
    (pairs : List.Forall₂ relation as bs) (mem : a ∈ as) : ∃ b ∈ bs, relation a b :=
  exists_left pairs.flip mem

theorem forall₂_mem {α β : Type} {relation : α → β → Prop} {as : List α} {bs : List β}
    (pairs : List.Forall₂ relation as bs) :
    List.Forall₂ (fun a b => a ∈ as ∧ relation a b) as bs := by
  induction pairs with
  | nil => exact .nil
  | cons pair _ ih =>
    exact .cons ⟨.head _, pair⟩
      (ih.imp fun _ _ rest => ⟨.tail _ rest.1, rest.2⟩)

theorem isomorphic_of_relation (relation : Nat → Nat → Prop) (start : relation root root')
    (functional : ∀ a x y, relation a x → relation a y → x = y)
    (injective : ∀ a b x, relation a x → relation b x → a = b)
    (step : ∀ a x, relation a x → ∃ zval zval', heap a = some zval ∧ heap' x = some zval' ∧
      SameKeys zval zval' ∧ List.Forall₂ relation zval.elements zval'.elements) :
    Isomorphic heap root heap' root' := by
  classical
  let map : Nat → Nat := fun a => if h : ∃ x, relation a x then h.choose else 0
  have isMap : ∀ a x, relation a x → map a = x := by
    intro a x related
    have some : ∃ x, relation a x := ⟨x, related⟩
    simp only [map, dif_pos some]
    exact functional a _ x some.choose_spec related
  have total : ∀ a, heap.Reaches root a → relation a (map a) := by
    intro a reaches
    induction reaches with
    | refl => rwa [isMap root root' start]
    | @tail a b _ edge ih =>
      obtain ⟨zval, zval', cell, -, -, pairs⟩ := step _ _ ih
      rw [elements_of_cell cell] at edge
      obtain ⟨x, -, related⟩ := exists_right pairs edge
      rwa [isMap b x related]
  refine ⟨map, isMap root root' start, fun a b reachesA reachesB same => ?_,
    fun a reaches zval cell => ?_⟩
  · exact injective a b _ (total a reachesA) (same ▸ total b reachesB)
  · obtain ⟨zval₀, zval', cell₀, copy, same, pairs⟩ := step _ _ (total a reaches)
    obtain rfl := Option.some.inj (cell₀.symm.trans cell)
    refine ⟨zval', copy, same, ?_⟩
    have mapped := pairs.imp fun a x related => isMap a x related
    exact (List.forall₂_eq_eq_eq ▸ List.forall₂_map_left_iff.mpr mapped : _ = _).symm

theorem Heap.Reaches.step {a b : Nat} (reaches : heap.Reaches root a) (edge : b ∈ heap.elements a) :
    heap.Reaches root b := Relation.ReflTransGen.tail reaches edge

theorem Graph.cell_of_reaches (graph : Graph heap) (inside : root ∈ graph.nodes) {a : Nat}
    (reaches : heap.Reaches root a) : a ∈ graph.nodes := by
  induction reaches with
  | refl => exact inside
  | tail _ edge ih => exact graph.closed _ ih _ edge

theorem elements_map {map : Nat → Nat} (present : ∀ a, heap.Reaches root a → (heap a).isSome)
    (values : ∀ a, heap.Reaches root a → ∀ zval, heap a = some zval → ∃ zval',
      heap' (map a) = some zval' ∧ SameKeys zval zval' ∧ zval'.elements = zval.elements.map map) :
    ∀ a, heap.Reaches root a → heap'.elements (map a) = (heap.elements a).map map := by
  intro a reaches
  obtain ⟨zval, cell⟩ := Option.isSome_iff_exists.mp (present a reaches)
  obtain ⟨zval', copy, -, elements⟩ := values a reaches zval cell
  rw [elements_of_cell copy, elements_of_cell cell, elements]

theorem reaches_map {map : Nat → Nat} (isRoot : map root = root')
    (present : ∀ a, heap.Reaches root a → (heap a).isSome)
    (values : ∀ a, heap.Reaches root a → ∀ zval, heap a = some zval → ∃ zval',
      heap' (map a) = some zval' ∧ SameKeys zval zval' ∧ zval'.elements = zval.elements.map map)
    {x : Nat} : heap'.Reaches root' x ↔ ∃ a, heap.Reaches root a ∧ map a = x := by
  have edges := elements_map present values
  constructor
  · intro reaches
    induction reaches with
    | refl => exact ⟨root, .refl, isRoot⟩
    | tail _ edge ih =>
      obtain ⟨a, reachesA, rfl⟩ := ih
      rw [edges a reachesA] at edge
      obtain ⟨b, isElement, rfl⟩ := List.mem_map.mp edge
      exact ⟨b, reachesA.step isElement, rfl⟩
  · rintro ⟨a, reaches, rfl⟩
    induction reaches with
    | refl => exact isRoot ▸ .refl
    | tail before edge ih =>
      refine ih.step ?_
      rw [edges _ before]
      exact mem_map_of_mem edge

def Referenced (heap : Heap) (root : Nat) : Prop :=
  ∃ a, heap.Reaches root a ∧ root ∈ heap.elements a

theorem SameKeys.trans {zval zval' zval'' : Zval} (first : SameKeys zval zval')
    (second : SameKeys zval' zval'') : SameKeys zval zval'' := by
  obtain ⟨value, refcount, isRef⟩ := zval
  obtain ⟨value', refcount', isRef'⟩ := zval'
  obtain ⟨value'', refcount'', isRef''⟩ := zval''
  obtain ⟨count, ref, same⟩ := first
  obtain ⟨count', ref', same'⟩ := second
  refine ⟨count'.trans count, ref'.trans ref, ?_⟩
  cases value with
  | scalar =>
    cases value' with
    | scalar =>
      cases value'' with
      | scalar => exact ⟨same'.1.trans same.1, same'.2.trans same.2⟩
      | string | array => exact same'
    | string | array => exact same.elim
  | string =>
    cases value' with
    | string =>
      cases value'' with
      | string => exact Eq.trans same' same
      | scalar | array => exact same'
    | scalar | array => exact same.elim
  | array =>
    cases value' with
    | array =>
      cases value'' with
      | array =>
        exact ⟨same'.1.trans same.1, same'.2.1.trans same.2.1, same'.2.2.1.trans same.2.2.1,
          same'.2.2.2.trans same.2.2.2⟩
      | scalar | string => exact same'
    | scalar | string => exact same.elim

theorem Isomorphic.trans (graph : Graph heap) (inside : root ∈ graph.nodes)
    (first : Isomorphic heap root heap' root') (second : Isomorphic heap' root' heap'' root'') :
    Isomorphic heap root heap'' root'' := by
  obtain ⟨map, isRoot, injective, values⟩ := first
  obtain ⟨map', isRoot', injective', values'⟩ := second
  have present : ∀ a, heap.Reaches root a → (heap a).isSome := fun a reaches =>
    graph.allocated a (graph.cell_of_reaches inside reaches)
  have reaches' : ∀ a, heap.Reaches root a → heap'.Reaches root' (map a) := fun a reaches =>
    (reaches_map isRoot present values).mpr ⟨a, reaches, rfl⟩
  refine ⟨map' ∘ map, ?_, fun a b reachesA reachesB same => ?_, fun a reaches zval cell => ?_⟩
  · rw [Function.comp, isRoot, isRoot']
  · exact injective a b reachesA reachesB
      (injective' _ _ (reaches' a reachesA) (reaches' b reachesB) same)
  · obtain ⟨zval', copy, same, elements⟩ := values a reaches zval cell
    obtain ⟨zval'', copy', same', elements'⟩ := values' _ (reaches' a reaches) zval' copy
    refine ⟨zval'', copy', ?_, ?_⟩
    · exact same.trans same'
    · rw [elements', elements, List.map_map]

theorem Isomorphic.referenced (graph : Graph heap) (inside : root ∈ graph.nodes)
    (isomorphic : Isomorphic heap root heap' root') :
    Referenced heap' root' ↔ Referenced heap root := by
  obtain ⟨map, isRoot, injective, values⟩ := isomorphic
  have present : ∀ a, heap.Reaches root a → (heap a).isSome := fun a reaches =>
    graph.allocated a (graph.cell_of_reaches inside reaches)
  have edges := elements_map present values
  constructor
  · rintro ⟨x, reaches, mem⟩
    obtain ⟨a, reachesA, rfl⟩ := (reaches_map isRoot present values).mp reaches
    rw [edges a reachesA] at mem
    obtain ⟨b, isElement, same⟩ := List.mem_map.mp mem
    have isRootB := injective b root (reachesA.step isElement) .refl (same.trans isRoot.symm)
    exact ⟨a, reachesA, isRootB ▸ isElement⟩
  · rintro ⟨a, reaches, mem⟩
    refine ⟨map a, (reaches_map isRoot present values).mpr ⟨a, reaches, rfl⟩, ?_⟩
    rw [edges a reaches, ← isRoot]
    exact mem_map_of_mem mem

end

/-! ## What has been copied -/

section

variable {heap : Heap} {sizes : Sizes} {nodes pending : List Nat} {copied : Copied}

theorem Copying.functional (copying : Copying heap nodes pending copied) {a x y : Nat}
    (first : (a, x) ∈ copied.table) (second : (a, y) ∈ copied.table) : x = y :=
  congrArg Prod.snd (List.inj_on_of_nodup_map copying.sources first second rfl)

theorem Copying.injective (copying : Copying heap nodes pending copied) {a b x : Nat}
    (first : (a, x) ∈ copied.table) (second : (b, x) ∈ copied.table) : a = b :=
  congrArg Prod.fst (List.inj_on_of_nodup_map copying.targets first second rfl)

theorem Copying.isomorphic (copying : Copying heap nodes [] copied) {root root' : Nat}
    (pair : (root, root') ∈ copied.table) : Isomorphic heap root copied.copies root' :=
  isomorphic_of_relation (fun a x => (a, x) ∈ copied.table) pair
    (fun _ _ _ => copying.functional) (fun _ _ _ => copying.injective)
    fun a x mem => copying.values (a, x) mem not_mem_nil

theorem SameKeys.buckets {zval zval' : Zval} (same : SameKeys zval zval') {ht' : Nat}
    {table' : Table} (isArray : zval'.value = .array ht' table') : ∃ ht table,
      zval.value = .array ht table ∧ table'.nTableMask = table.nTableMask ∧
        table'.buckets.length = table.buckets.length := by
  obtain ⟨value, refcount, isRef⟩ := zval
  obtain ⟨value', refcount', isRef'⟩ := zval'
  subst isArray
  obtain ⟨-, -, keys⟩ := same
  cases value with
  | scalar | string => exact keys.elim
  | array ht table =>
    exact ⟨ht, table, rfl, keys.2.1, by simpa using congrArg List.length keys.2.2.2⟩

def Copying.graph (graph : Graph heap) (copying : Copying heap graph.nodes [] copied)
    (inside : ∀ entry ∈ copied.table, entry.1 ∈ graph.nodes) : Graph copied.copies where
  nodes := copied.table.map Prod.snd
  allocated := by
    intro x member
    obtain ⟨entry, isEntry, rfl⟩ := List.mem_map.mp member
    obtain ⟨_, zval', -, copy, -⟩ := copying.values entry isEntry not_mem_nil
    exact Option.isSome_iff_exists.mpr ⟨zval', copy⟩
  initialised := by
    intro x member ht' table' refcount isRef cell mask
    obtain ⟨entry, isEntry, rfl⟩ := List.mem_map.mp member
    obtain ⟨zval, zval', original, copy, same, -⟩ :=
      copying.values entry isEntry not_mem_nil
    obtain rfl := Option.some.inj (copy.symm.trans cell)
    obtain ⟨ht, table, isArray, sameMask, length⟩ := same.buckets rfl
    rw [graph.cell_initialised (inside entry isEntry) original ht table isArray
      (sameMask.symm.trans mask)] at length
    exact List.length_eq_zero_iff.mp length
  closed := by
    intro x member y isElement
    obtain ⟨entry, isEntry, rfl⟩ := List.mem_map.mp member
    obtain ⟨zval, zval', -, copy, -, pairs⟩ := copying.values entry isEntry not_mem_nil
    rw [elements_of_cell copy] at isElement
    obtain ⟨_, -, pair⟩ := exists_left pairs isElement
    exact mem_map_of_mem pair

theorem Copying.length_le {known : List Nat} (copying : Copying heap nodes pending copied)
    (inside : ∀ entry ∈ copied.table, entry.1 ∈ known) :
    (copied.table.map Prod.snd).length ≤ known.length := by
  have subset : copied.table.map Prod.fst ⊆ known := by
    intro a mem
    obtain ⟨entry, isEntry, rfl⟩ := List.mem_map.mp mem
    exact inside entry isEntry
  have le := (List.subperm_of_subset copying.sources subset).length_le
  rwa [List.length_map] at le ⊢

/-- **The store pass makes an isomorphic graph of an entry's value.** The tables of the arrays lie
apart from the zvals. -/
theorem storeEntryVar_copies (sizes : Sizes) (graph : Graph heap) (block : Nat)
    (name : List UInt8) {value : Nat} (inside : value ∈ graph.nodes) : ∃ store table dst,
      storeEntryVar sizes heap (graph.nodes.length + 1) block name value = some (store, dst) ∧
      Copying heap graph.nodes [] (store.copied table) ∧
      (∀ entry ∈ table, entry.1 ∈ graph.nodes) ∧ (value, dst) ∈ table ∧
      ∃ zval, store.copies dst = some zval ∧
        ∀ ht array, zval.value = .array ht array → ht ∉ table.map Prod.snd := by
  obtain ⟨-, noCopies, noZvals, reference⟩ := storeString_spec .store
    ⟨align (block + sizes.entry), [], [], true, fun _ => none, [(block, sizes.entry)]⟩ name
  simp only [storeEntryVar]
  generalize (storeString .store ⟨align (block + sizes.entry), [], [], true, fun _ => none,
    [(block, sizes.entry)]⟩ name).1 = start at noCopies noZvals reference ⊢
  obtain ⟨zval, cell⟩ := Option.isSome_iff_exists.mp (graph.allocated value inside)
  have elements : ∀ a ∈ zval.elements, a ∈ graph.nodes := fun a mem =>
    graph.closed value inside a (elements_of_cell cell ▸ mem)
  have entered : (start.alloc sizes.zval).1.enter value (align start.p) =
      { (start.alloc sizes.zval).1 with zvalptrs := [(value, align start.p)] } := by
    rw [Store.enter, if_pos (by exact reference)]
    simp only [Store.alloc, noZvals]
  have steps : Steps heap (storeZvalPtr sizes .store heap graph.nodes.length)
      (Tabled graph graph.nodes.length) := storeZvalPtr_copies graph _
  obtain ⟨store, table, zval', copies, n, result, high, filled, same, copied, -, tables⟩ :=
    storeZvalPtr_fresh start [] steps (Tabled.steady graph _)
      (by simp [Store.find, noZvals]) cell (graph.cell_initialised inside cell) (by
        rw [entered]
        refine ⟨reference, rfl, elements, ?_⟩
        exact (unmet_lt inside not_mem_nil).trans_le (List.length_filter_le _ _))
  have whole : CopyList heap ⟨[], fun _ => none, start.p⟩ [value] (store.copied table)
      [align start.p] := by
    rw [Store.copied, copied]
    rw [noCopies] at filled
    exact .fresh rfl cell (le_align _) high filled same .nil
  have empty : Copying heap graph.nodes [] ⟨[], fun _ => none, start.p⟩ :=
    ⟨.nil, .nil, by rintro _ ⟨⟩, by rintro _ ⟨⟩, by rintro _ _ ⟨⟩⟩
  have all := whole.spec graph.closed (by simpa using inside) empty
  -- the root's table lies between the root and its elements
  have isEntered : Copying heap graph.nodes [value]
      ⟨[(value, align start.p)], start.copies, n⟩ :=
    ⟨List.nodup_singleton _, List.nodup_singleton _, by simpa using high, by simp,
      by rw [noCopies]; rintro _ _ ⟨⟩⟩
  have below := filled.spec graph.closed elements isEntered
  refine ⟨store, table, align start.p, result, all.copying, fun entry mem => ?_, ?_, zval', ?_,
    fun ht array isArray mem => ?_⟩
  · exact ((all.new entry mem).resolve_left not_mem_nil).2
  · exact (List.forall₂_cons.mp all.pairs).1
  · rw [copied, update_self]
  · obtain ⟨entry, isEntry, rfl⟩ := List.mem_map.mp mem
    obtain ⟨low, high'⟩ := tables _ _ isArray
    rcases below.new entry isEntry with isRoot | ⟨later, -⟩
    · rw [List.mem_singleton.mp isRoot] at low
      exact Nat.lt_irrefl _ low
    · exact absurd later (Nat.not_le.mpr high')

end

/-! ## The zvals that the calc pass has met -/

section

variable {heap heap' : Heap} {bound : Nat} {srcs visited : List Nat}

theorem Visits.succ (visits : Visits heap bound srcs visited) :
    Visits heap (bound + 1) srcs visited := by
  induction visits with
  | nil => exact .nil
  | cons cell _ _ ih ih' => exact .cons cell ih ih'

theorem Visits.inside {nodes : List Nat} (closed : ∀ a ∈ nodes, ∀ b ∈ heap.elements a, b ∈ nodes)
    (visits : Visits heap bound srcs visited) (start : ∀ a ∈ srcs, a ∈ nodes) :
    ∀ a ∈ visited, a ∈ nodes := by
  induction visits with
  | nil => exact start
  | @cons _ src zval _ below behind cell _ _ ih ih' =>
    have here := start src (.head _)
    rw [List.forall_mem_cons, List.forall_mem_append]
    exact ⟨here, ih fun a mem => closed src here a (elements_of_cell cell ▸ mem),
      ih' fun a mem => start a (.tail _ mem)⟩

theorem Visits.copies {nodes : List Nat} {table : List (Nat × Nat)}
    (copying : Copying heap nodes [] ⟨table, heap', bound⟩) {depth : Nat}
    (visits : Visits heap depth srcs visited) {dsts : List Nat}
    (pairs : List.Forall₂ (fun a d => (a, d) ∈ table) srcs dsts) : ∃ visited',
      Visits heap' depth dsts visited' ∧
        List.Forall₂ (fun a d => (a, d) ∈ table) visited visited' := by
  induction visits generalizing dsts with
  | nil =>
    cases pairs
    exact ⟨[], .nil, .nil⟩
  | @cons _ src zval _ below behind cell _ _ ih ih' =>
    cases pairs with
    | @cons _ dst _ _ pair rest =>
      obtain ⟨original, zval', isZval, copy, -, elements⟩ :=
        copying.values _ pair not_mem_nil
      obtain rfl := Option.some.inj (isZval.symm.trans cell)
      obtain ⟨below', visits, met⟩ := ih elements
      obtain ⟨behind', visits', met'⟩ := ih' rest
      exact ⟨dst :: (below' ++ behind'), .cons copy visits visits',
        .cons pair (List.rel_append met met')⟩

end

/-! ## The restore pass -/

section

variable {heap : Heap} {sizes : Sizes}

theorem restoreZval_copies (sizes : Sizes) (graph : Graph heap) {src : Nat} {zval : Zval}
    (inside : src ∈ graph.nodes) (cell : heap src = some zval) {fuel p dst : Nat} (below : dst < p)
    {haveReferences : Bool} (enough : graph.nodes.length < fuel)
    (apart : zval.elements = [] ∨ zval.value.firstWord ∉ graph.nodes)
    (once : haveReferences = false → ∃ visited,
      Visits heap fuel zval.elements visited ∧ visited.Nodup) : ∃ zval' copies n copied,
      restoreZval sizes heap fuel haveReferences p dst src =
        some (update copies dst (some zval')) ∧ dst < n ∧ SameKeys zval zval' ∧
      copied.copies = copies ∧ Result heap graph.nodes [zval.value.firstWord]
        ⟨[(zval.value.firstWord, dst)], fun _ => none, n⟩ zval.elements copied zval'.elements := by
  have elements : ∀ a ∈ zval.elements, a ∈ graph.nodes := fun a mem =>
    graph.closed src inside a (elements_of_cell cell ▸ mem)
  let start : Store :=
    Store.enter ⟨p, [], [], haveReferences, fun _ => none, []⟩ zval.value.firstWord dst
  have started : start.copies = (fun _ => none) ∧ start.p = p ∧
      start.reference = haveReferences := by
    simp only [start, Store.enter]
    split <;> exact ⟨rfl, rfl, rfl⟩
  have runs {ready : Store → List (Nat × Nat) → List Nat → Prop}
      (steps : Steps heap (storeZvalPtr sizes .restore heap fuel) ready) (steady : Steady ready)
      (isReady : ready start [(zval.value.firstWord, dst)] zval.elements) :
      ∃ zval' copies n copied,
        restoreZval sizes heap fuel haveReferences p dst src =
          some (update copies dst (some zval')) ∧ dst < n ∧ SameKeys zval zval' ∧
        copied.copies = copies ∧
        Result heap graph.nodes [zval.value.firstWord]
          ⟨[(zval.value.firstWord, dst)], fun _ => none, n⟩ zval.elements copied
          zval'.elements := by
    obtain ⟨store, table, zval', copies, n, result, le, filled, same, copied, -⟩ :=
      storeZval_step sizes .restore steps steady
        (graph.cell_initialised inside cell) dst isReady
    rw [started.1] at filled
    rw [started.2.1] at le
    refine ⟨zval', copies, n, ⟨table, copies, store.p⟩, ?_, by omega, same, rfl,
      filled.spec graph.closed elements ⟨List.nodup_singleton _, List.nodup_singleton _, ?_,
        by simp, by rintro _ _ ⟨⟩⟩⟩
    · simp only [restoreZval, cell]
      exact (congrArg (Option.map Store.copies) result).trans (congrArg some copied)
    · simp only [List.mem_singleton, forall_eq]
      omega
  cases haveReferences with
  | true =>
    exact runs (storeZvalPtr_copies graph fuel) (Tabled.steady graph fuel)
      ⟨rfl, rfl, elements, (List.length_filter_le _ _).trans_lt enough⟩
  | false =>
    obtain ⟨visited, visits, nodup⟩ := once rfl
    refine runs (storeZvalPtr_plain graph fuel []) (Untabled.steady graph fuel [])
      ⟨rfl, elements, visited, visits, by rwa [List.append_nil], fun a mem met => ?_⟩
    rw [List.append_nil] at mem
    rw [List.map_singleton, List.mem_singleton] at met
    subst met
    rcases apart with none | apart
    · rw [none] at visits
      cases visits
      cases mem
    · exact apart (visits.inside graph.closed elements _ mem)

theorem apart_of_element {nodes : List Nat} {src word : Nat} {zval : Zval}
    (cell : heap src = some zval) (apart : zval.elements = [] ∨ word ∉ nodes) {a b : Nat}
    (reaches : heap.Reaches src a) (edge : b ∈ heap.elements a) : word ∉ nodes := by
  refine apart.resolve_left fun none => ?_
  rw [← elements_of_cell cell] at none
  have stays : a = src := by
    rcases Relation.ReflTransGen.cases_head reaches with rfl | ⟨c, first, -⟩
    · rfl
    · rw [none] at first
      cases first
  rw [stays, none] at edge
  cases edge

section

variable {graph : Graph heap} {src dst word n : Nat} {zval zval' : Zval} {copied : Copied}

/-- **A root that is not met again is restored with all that it leads to.** -/
theorem isomorphic_of_not_referenced (inside : src ∈ graph.nodes) (cell : heap src = some zval)
    (apart : zval.elements = [] ∨ word ∉ graph.nodes) (below : dst < n) (same : SameKeys zval zval')
    (result : Result heap graph.nodes [word] ⟨[(word, dst)], fun _ => none, n⟩ zval.elements
      copied zval'.elements) (unreferenced : ¬ Referenced heap src) :
    Isomorphic heap src (update copied.copies dst (some zval')) dst := by
  have entered := result.grown (word, dst) (.head _)
  -- the copy of an element is one that was made
  have made {a b d : Nat} (reaches : heap.Reaches src a) (edge : b ∈ heap.elements a)
      (pair : (b, d) ∈ copied.table) :
      b ≠ src ∧ heap.Reaches src b ∧ n ≤ d ∧ (b, d) ∈ copied.table := by
    refine ⟨?_, reaches.step edge, ?_, pair⟩
    · rintro rfl
      exact unreferenced ⟨a, reaches, edge⟩
    · rcases result.new (b, d) pair with isRoot | ⟨later, -⟩
      · obtain ⟨rfl, -⟩ := Prod.mk.inj (List.mem_singleton.mp isRoot)
        exact absurd (graph.cell_of_reaches inside (reaches.step edge))
          (apart_of_element cell apart reaches edge)
      · exact later
  refine isomorphic_of_relation
    (fun a x => a = src ∧ x = dst ∨
      a ≠ src ∧ heap.Reaches src a ∧ n ≤ x ∧ (a, x) ∈ copied.table)
    (.inl ⟨rfl, rfl⟩) ?_ ?_ ?_
  · rintro a x y (⟨isSrc, rfl⟩ | ⟨away, -, -, pair⟩) (⟨isSrc', isDst⟩ | ⟨away', -, -, pair'⟩)
    · exact isDst.symm
    · exact absurd isSrc away'
    · exact absurd isSrc' away
    · exact result.copying.functional pair pair'
  · rintro a b x (⟨rfl, isDst⟩ | ⟨-, -, later, pair⟩) (⟨isSrc, isDst'⟩ | ⟨-, -, later', pair'⟩)
    · exact isSrc.symm
    · exact absurd (isDst ▸ below) (Nat.not_lt.mpr later')
    · exact absurd (isDst' ▸ below) (Nat.not_lt.mpr later)
    · exact result.copying.injective pair pair'
  · rintro a x (⟨rfl, rfl⟩ | ⟨-, reaches, later, pair⟩)
    · refine ⟨zval, zval', cell, update_self _ _ _, same, ?_⟩
      refine (forall₂_mem result.pairs).imp fun b d isPair => .inr ?_
      exact made .refl (elements_of_cell cell ▸ isPair.1) isPair.2
    · have notPending : a ∉ [word] := by
        rw [List.mem_singleton]
        rintro rfl
        obtain rfl := result.copying.functional pair entered
        exact absurd below (Nat.not_lt.mpr later)
      obtain ⟨original, copy, isOriginal, isCopy, keys, pairs⟩ :=
        result.copying.values (a, x) pair notPending
      refine ⟨original, copy, isOriginal, ?_, keys, ?_⟩
      · rw [update_of_ne (by omega)]
        exact isCopy
      · refine (forall₂_mem pairs).imp fun b d isPair => .inr ?_
        exact made reaches (elements_of_cell isOriginal ▸ isPair.1) isPair.2

theorem not_referenced_restored (inside : src ∈ graph.nodes) (cell : heap src = some zval)
    (apart : zval.elements = [] ∨ word ∉ graph.nodes)
    (result : Result heap graph.nodes [word] ⟨[(word, dst)], fun _ => none, n⟩ zval.elements
      copied zval'.elements) : ¬ Referenced (update copied.copies dst (some zval')) dst := by
  rintro ⟨x, reaches, mem⟩
  have entered := result.grown (word, dst) (.head _)
  have filled : update copied.copies dst (some zval') dst = some zval' :=
    update_self _ _ _
  have apart' : zval'.elements = [] ∨ word ∉ graph.nodes := apart.imp_left fun none => by
    simpa [none] using result.pairs
  have outside := apart_of_element filled apart' reaches mem
  suffices element : ∃ b ∈ graph.nodes, (b, dst) ∈ copied.table by
    obtain ⟨b, isNode, pair⟩ := element
    exact outside (result.copying.injective entered pair ▸ isNode)
  by_cases isDst : x = dst
  · rw [isDst, elements_of_cell filled] at mem
    obtain ⟨b, isElement, pair⟩ := exists_left result.pairs mem
    exact ⟨b, graph.closed src inside b (elements_of_cell cell ▸ isElement), pair⟩
  · have others : (update copied.copies dst (some zval')) x = copied.copies x :=
      update_of_ne isDst _ _
    cases found : copied.copies x with
    | none => simp [Heap.elements, others, found] at mem
    | some other =>
      rw [elements_of_cell (others.trans found)] at mem
      exact result.copying.cells x other found dst mem

end

end

theorem setThenGet_copies {heap : Heap} (sizes : Sizes) (graph : Graph heap) (block : Nat)
    (name : List UInt8) {value p dst : Nat} (inside : value ∈ graph.nodes) (below : dst < p) :
    ∃ (stored : Heap) (graph' : Graph stored) (src word n : Nat) (zval zval' : Zval)
      (copied : Copied), setThenGet sizes heap (graph.nodes.length + 1) block name value p dst =
        some (update copied.copies dst (some zval')) ∧
      Isomorphic heap value stored src ∧ src ∈ graph'.nodes ∧ stored src = some zval ∧
      (zval.elements = [] ∨ word ∉ graph'.nodes) ∧ dst < n ∧ SameKeys zval zval' ∧
      Result stored graph'.nodes [word] ⟨[(word, dst)], fun _ => none, n⟩ zval.elements copied
        zval'.elements := by
  obtain ⟨sized, calculated, -⟩ := calcZvalPtr_ends sizes graph
    (graph.nodes.length + 1) (calcString ⟨align sizes.entry, [], [], false⟩ name) value inside
    (Nat.lt_succ_of_le (List.length_filter_le _ _))
  obtain ⟨store, table, src, stored, copying, sources, pair, zval, cell, tables⟩ :=
    storeEntryVar_copies sizes graph block name inside
  have isSrc : src ∈ (copying.graph graph sources).nodes := mem_map_of_mem pair
  have enough : (copying.graph graph sources).nodes.length < graph.nodes.length + 1 :=
    Nat.lt_succ_of_le (copying.length_le sources)
  have apart : zval.elements = [] ∨
      zval.value.firstWord ∉ (copying.graph graph sources).nodes := by
    obtain ⟨value, refcount, isRef⟩ := zval
    cases value with
    | scalar | string => exact .inl rfl
    | array ht array => exact .inr (tables ht array rfl)
  have once : sized.haveReferences = false → ∃ visited,
      Visits store.copies (graph.nodes.length + 1) zval.elements visited ∧ visited.Nodup := by
    intro none
    obtain ⟨-, visited, visits, met, nodup⟩ :=
      calcZvalPtr_visits graph (graph.nodes.length + 1) inside calculated none
    rw [calcString_zvalptrs] at met nodup
    rw [met, List.append_nil, List.nodup_reverse] at nodup
    obtain ⟨visited', visits', pairs⟩ := visits.copies copying (.cons pair .nil)
    have oneToOne : Relator.BiUnique fun a d => (a, d) ∈ table :=
      ⟨fun _ _ _ => copying.injective, fun _ _ _ => copying.functional⟩
    have nodup' := (List.rel_nodup oneToOne pairs).mp (nodup .nil)
    cases visits' with
    | @cons _ _ _ _ below behind cell' visits' rest =>
      obtain rfl := Option.some.inj (cell.symm.trans cell')
      exact ⟨below, visits'.succ,
        (List.nodup_append.mp (List.nodup_cons.mp nodup').2).1⟩
  obtain ⟨zval', _, n, copied, restored, low, same, rfl, result⟩ :=
    restoreZval_copies sizes (copying.graph graph sources) isSrc cell below enough apart once
  have gets : setThenGet sizes heap (graph.nodes.length + 1) block name value p dst =
      some (update copied.copies dst (some zval')) := by
    simp only [setThenGet, calcEntryVar, calculated, stored, Option.bind_eq_bind,
      Option.bind_some]
    exact restored
  exact ⟨store.copies, copying.graph graph sources, src, zval.value.firstWord, n, zval, zval',
    copied, gets, copying.isomorphic pair, isSrc, cell, apart, low, same, result⟩

theorem setThenGet_restored {heap : Heap} (sizes : Sizes) (graph : Graph heap) (block : Nat)
    (name : List UInt8) {value p dst : Nat} (inside : value ∈ graph.nodes) (below : dst < p) :
    ∃ heap', setThenGet sizes heap (graph.nodes.length + 1) block name value p dst = some heap' ∧
      ¬ Referenced heap' dst ∧ (¬ Referenced heap value → Isomorphic heap value heap' dst) := by
  obtain ⟨stored, graph', src, word, n, zval, zval', copied, gets, first, isSrc, cell, apart, low,
    same, result⟩ := setThenGet_copies sizes graph block name inside below
  refine ⟨_, gets, not_referenced_restored isSrc cell apart result, fun unreferenced => ?_⟩
  exact first.trans graph inside (isomorphic_of_not_referenced isSrc cell apart low same result
    (mt (first.referenced graph inside).mp unreferenced))

/-- **For every graph, storing and restoring a value ends, and it yields an isomorphic graph
if and only if the root is not an element of what it leads to.** -/
theorem setThenGet_iff {heap : Heap} (sizes : Sizes) (graph : Graph heap) (block : Nat)
    (name : List UInt8) {value p dst : Nat} (inside : value ∈ graph.nodes) (below : dst < p) :
    ∃ heap', setThenGet sizes heap (graph.nodes.length + 1) block name value p dst = some heap' ∧
      (Isomorphic heap value heap' dst ↔ ¬ Referenced heap value) := by
  obtain ⟨heap', gets, apart, isomorphic⟩ :=
    setThenGet_restored sizes graph block name inside below
  exact ⟨heap', gets, fun whole referenced =>
    apart ((whole.referenced graph inside).mpr referenced), isomorphic⟩

theorem setThenGet_iff_cyclic : ∃ heap',
    setThenGet sizes64 cyclicHeap 3 4096 [120] 1000 65560 65536 = some heap' ∧
      (Isomorphic cyclicHeap 1000 heap' 65536 ↔ ¬ Referenced cyclicHeap 1000) :=
  setThenGet_iff sizes64 cyclicGraph 4096 [120] (by decide) (by decide)

/-- An array that has itself as an element by reference comes back with a second array in
its place. -/
theorem setThenGet_not_isomorphic : ¬ ∀ (sizes : Sizes) (heap : Heap) (graph : Graph heap)
    (block : Nat) (name : List UInt8) (value p dst : Nat), value ∈ graph.nodes → dst < p →
    ∃ heap', setThenGet sizes heap (graph.nodes.length + 1) block name value p dst = some heap' ∧
      Isomorphic heap value heap' dst := by
  intro preserves
  obtain ⟨heap', gets, whole⟩ := preserves sizes64 cyclicHeap cyclicGraph 4096 [120] 1000 65560
    65536 (by decide) (by decide)
  obtain ⟨restored, gets', apart, -⟩ := @setThenGet_restored cyclicHeap sizes64
    cyclicGraph 4096 [120] 1000 65560 65536 (by decide) (by decide)
  obtain rfl := Option.some.inj (gets.symm.trans gets')
  exact apart ((whole.referenced cyclicGraph (by decide)).mpr ⟨1000, .refl, by decide⟩)

end PhpExts.XCache.Processor
