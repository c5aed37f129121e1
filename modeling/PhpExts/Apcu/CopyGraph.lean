import PhpExts.Apcu.Copy

/-!
# A copied graph is isomorphic to the original

The invariant of a copy in progress, `Copying`, speaks of the list `met` of the
zvals that `my_copy_zval` has been called for so far.  Every zval in it has one copy, whose
count is the number of its occurrences, and which is marked as a reference exactly
when the original is one and occurs twice.  The copy of an array whose buckets are
still being copied is `pending`; every other one has its final value.

A zval is entered in `copied` before the recursion, so each level of the recursion
leaves one zval of the graph fewer to copy: the depth is bounded by their number.
-/

namespace PhpExts.Apcu.Copy

open Function (update_of_ne update_self)
open List (append_assoc count_append map_append mem_append_left mem_map_of_mem map_cons mem_cons
  inj_on_of_nodup_map)

/-! ## The table of copied zvals -/

def copyOf (copied : List (Addr × Addr)) (a : Addr) : Addr := (copied.lookup a).getD 0

theorem lookup_eq_some_iff {copied : List (Addr × Addr)} (keys : (copied.map Prod.fst).Nodup)
    {a a' : Addr} : copied.lookup a = some a' ↔ (a, a') ∈ copied := by
  induction copied with
  | nil => simp
  | cons pair copied ih =>
    obtain ⟨k, v⟩ := pair
    obtain ⟨head, rest⟩ := List.nodup_cons.mp keys
    by_cases same : a = k
    · subst same
      have absent : (a, a') ∉ copied := fun mem =>
        head (List.mem_map.mpr ⟨_, mem, rfl⟩)
      simp [absent, eq_comm]
    · have apart : (a == k) = false := by simpa using same
      simp [List.lookup_cons, apart, same, ih rest]

theorem lookup_isSome {copied : List (Addr × Addr)} {a : Addr} :
    (copied.lookup a).isSome ↔ a ∈ copied.map Prod.fst := by
  induction copied with
  | nil => simp
  | cons pair copied ih =>
    by_cases same : a = pair.1
    · simp [same]
    · have apart : (a == pair.1) = false := by simpa using same
      rw [List.lookup_cons, apart, map_cons, mem_cons]
      exact ih.trans (by simp only [same, false_or])

theorem copyOf_append {copied : List (Addr × Addr)} (more : List (Addr × Addr)) {a : Addr}
    (mem : a ∈ copied.map Prod.fst) : copyOf (copied ++ more) a = copyOf copied a := by
  obtain ⟨a', found⟩ := Option.isSome_iff_exists.mp (lookup_isSome.mpr mem)
  simp [copyOf, List.lookup_append, found]

/-! ## Copies of values -/

theorem sameBuckets_congr {map map' : Addr → Addr} {list list' : List Bucket}
    (buckets : List.Forall₂ (SameBucket map) list list')
    (agree : ∀ a ∈ list.map Bucket.data, map' a = map a) :
    List.Forall₂ (SameBucket map') list list' := by
  induction buckets with
  | nil => exact .nil
  | cons head tail ih =>
    exact .cons ⟨head.1, head.2.1, head.2.2.trans (agree _ (by simp)).symm⟩
      (ih fun a mem => agree a (by simp [mem]))

theorem data_of_sameBuckets {map : Addr → Addr} {list list' : List Bucket}
    (buckets : List.Forall₂ (SameBucket map) list list') :
    list'.map Bucket.data = (list.map Bucket.data).map map := by
  induction buckets with
  | nil => rfl
  | cons head tail ih => simp only [map_cons, head.2.2, ih]

theorem SameValue.congr {map map' : Addr → Addr} {value value' : Value}
    (same : SameValue map value value') (agree : ∀ a ∈ value.elements, map' a = map a) :
    SameValue map' value value' := by
  match value, value', same with
  | .scalar _, .scalar _, same => exact same
  | .string _, .string _, same => exact same
  | .array _, .array _, ⟨buckets, rest⟩ => exact ⟨sameBuckets_congr buckets agree, rest⟩

theorem SameValue.elements {map : Addr → Addr} {value value' : Value}
    (same : SameValue map value value') : value'.elements = value.elements.map map := by
  match value, value', same with
  | .scalar _, .scalar _, _ => rfl
  | .string _, .string _, _ => rfl
  | .array _, .array _, ⟨buckets, _⟩ => exact data_of_sameBuckets buckets

/-! ## The chains of a rebuilt table -/

/-- The copies made so far of the zvals of the heap `before`. -/
structure Copying (before : Heap) (pending met : List Addr) (ctxt : Context) : Prop where
  recursive : ctxt.recursive = true
  old : ∀ a < before.next, ctxt.heap.cells a = before.cells a
  grown : before.next ≤ ctxt.heap.next
  sources : ∀ p ∈ ctxt.copied, p.1 < before.next ∧ p.1 ∈ met
  copies : ∀ p ∈ ctxt.copied, before.next ≤ p.2 ∧ p.2 < ctxt.heap.next
  keys : (ctxt.copied.map Prod.fst).Nodup
  values : (ctxt.copied.map Prod.snd).Nodup
  entered : ∀ a ∈ met, a ∈ ctxt.copied.map Prod.fst
  cell : ∀ p ∈ ctxt.copied, ∃ zval zval', before.cells p.1 = some zval ∧
    ctxt.heap.cells p.2 = some zval' ∧ zval'.refcount = met.count p.1 ∧
    zval'.isRef = (zval.isRef && decide (2 ≤ met.count p.1)) ∧
    (p.1 ∉ pending → SameValue (copyOf ctxt.copied) zval.value zval'.value ∧
      ∀ b ∈ zval.value.elements, b ∈ ctxt.copied.map Prod.fst)

section

variable {before : Heap} {pending met : List Addr} {ctxt : Context}

@[simp] theorem heap_alloc_cells (ctxt : Context) : ctxt.alloc.1.heap.cells = ctxt.heap.cells := rfl

@[simp] theorem alloc_copied (ctxt : Context) : ctxt.alloc.1.copied = ctxt.copied := rfl

@[simp] theorem write_copied (ctxt : Context) (addr : Addr) (zval : Option Zval) :
    (ctxt.write addr zval).copied = ctxt.copied := rfl

@[simp] theorem write_next (ctxt : Context) (addr : Addr) (zval : Option Zval) :
    (ctxt.write addr zval).heap.next = ctxt.heap.next := rfl

theorem write_self (ctxt : Context) (addr : Addr) (zval : Option Zval) :
    (ctxt.write addr zval).heap.cells addr = zval := update_self _ _ _

theorem write_of_ne (ctxt : Context) {addr a : Addr} (ne : a ≠ addr) (zval : Option Zval) :
    (ctxt.write addr zval).heap.cells a = ctxt.heap.cells a := update_of_ne ne _ _

theorem Copying.alloc (copying : Copying before pending met ctxt) :
    Copying before pending met ctxt.alloc.1 :=
  { copying with
    grown := copying.grown.trans (Nat.le_succ _)
    copies := fun p mem =>
      ⟨(copying.copies p mem).1, (copying.copies p mem).2.trans (Nat.lt_succ_self _)⟩ }

theorem Copying.write (copying : Copying before pending met ctxt) {dst : Addr}
    (new : before.next ≤ dst) (noCopy : dst ∉ ctxt.copied.map Prod.snd) (zval : Option Zval) :
    Copying before pending met (ctxt.write dst zval) :=
  { copying with
    old := fun a isOld => by
      rw [write_of_ne ctxt (Nat.lt_of_lt_of_le isOld new).ne]
      exact copying.old a isOld
    cell := fun p mem => by
      have ne : p.2 ≠ dst := fun eq => noCopy (eq ▸ mem_map_of_mem mem)
      rw [write_of_ne ctxt ne]
      exact copying.cell p mem }

/-- The copy of a zval is entered in `copied`, with the value of the original. -/
def Context.enter (ctxt : Context) (src dst : Addr) (zval : Zval) : Context :=
  { ctxt with copied := ctxt.copied ++ [(src, dst)] }.write dst (some ⟨zval.value, 1, false⟩)

theorem Copying.enter (copying : Copying before pending met ctxt) {src dst : Addr} {zval : Zval}
    (isZval : before.cells src = some zval) (isOld : src < before.next)
    (unmet : src ∉ ctxt.copied.map Prod.fst) (new : before.next ≤ dst)
    (given : dst < ctxt.heap.next) (noCopy : dst ∉ ctxt.copied.map Prod.snd) :
    Copying before (src :: pending) (met ++ [src]) (ctxt.enter src dst zval) := by
  have zero : met.count src = 0 := List.count_eq_zero.mpr fun mem =>
    unmet (copying.entered src mem)
  refine ⟨copying.recursive, fun a older => ?_, copying.grown, fun p mem => ?_,
    fun p mem => ?_, ?_, ?_, fun a mem => ?_, fun p mem => ?_⟩
  · rw [Context.enter, write_of_ne _ (Nat.lt_of_lt_of_le older new).ne]
    exact copying.old a older
  · rcases List.mem_append.mp mem with old | own
    · exact ⟨(copying.sources p old).1, mem_append_left _ (copying.sources p old).2⟩
    · obtain rfl := List.mem_singleton.mp own
      exact ⟨isOld, by simp⟩
  · rcases List.mem_append.mp mem with old | own
    · exact copying.copies p old
    · obtain rfl := List.mem_singleton.mp own
      exact ⟨new, given⟩
  · show ((ctxt.copied ++ [(src, dst)]).map Prod.fst).Nodup
    rw [map_append, List.nodup_append]
    exact ⟨copying.keys, by simp, fun a mem b own => by
      obtain rfl := List.mem_singleton.mp own
      rintro rfl
      exact unmet mem⟩
  · show ((ctxt.copied ++ [(src, dst)]).map Prod.snd).Nodup
    rw [map_append, List.nodup_append]
    exact ⟨copying.values, by simp, fun a mem b own => by
      obtain rfl := List.mem_singleton.mp own
      rintro rfl
      exact noCopy mem⟩
  · show a ∈ (ctxt.copied ++ [(src, dst)]).map Prod.fst
    rw [map_append]
    rcases List.mem_append.mp mem with old | own
    · exact mem_append_left _ (copying.entered a old)
    · exact List.mem_append_right _ own
  · rcases List.mem_append.mp mem with old | own
    · obtain ⟨z, z', source, copy, refcount, isRef, value⟩ := copying.cell p old
      have ne : p.2 ≠ dst := fun eq => noCopy (eq ▸ mem_map_of_mem old)
      have apart : p.1 ≠ src := fun eq => unmet (eq ▸ mem_map_of_mem old)
      have same : (met ++ [src]).count p.1 = met.count p.1 := by
        rw [count_append, List.count_singleton, if_neg (by simpa using Ne.symm apart)]
        rfl
      refine ⟨z, z', source, (write_of_ne _ ne _).trans copy, by rw [same, refcount],
        by rw [same, isRef], fun done => ?_⟩
      obtain ⟨sameValue, elements⟩ := value fun isPending => done (.tail _ isPending)
      refine ⟨sameValue.congr fun a mem => copyOf_append _ (elements a mem),
        fun b mem => ?_⟩
      rw [Context.enter, write_copied, map_append]
      exact mem_append_left _ (elements b mem)
    · obtain rfl := List.mem_singleton.mp own
      refine ⟨zval, _, isZval, write_self _ _ _, ?_, ?_, fun done => ?_⟩
      · rw [count_append, zero, List.count_singleton_self]
      · rw [count_append, zero, List.count_singleton_self]
        simp
      · exact absurd (.head _) done

theorem Copying.finish {src dst : Addr} (copying : Copying before (src :: pending) met ctxt)
    (found : (src, dst) ∈ ctxt.copied) {zval : Zval} (isZval : before.cells src = some zval)
    {value : Value} (same : SameValue (copyOf ctxt.copied) zval.value value)
    (elements : ∀ b ∈ zval.value.elements, b ∈ ctxt.copied.map Prod.fst) :
    Copying before pending met
      (ctxt.write dst ((ctxt.heap.cells dst).map fun zval => { zval with value := value })) := by
  refine ⟨copying.recursive, fun a older => ?_, copying.grown, copying.sources, copying.copies,
    copying.keys, copying.values, copying.entered, fun p mem => ?_⟩
  · rw [write_of_ne _ (Nat.lt_of_lt_of_le older (copying.copies _ found).1).ne]
    exact copying.old a older
  · obtain ⟨z, z', source, copy, refcount, isRef, final⟩ := copying.cell p mem
    by_cases own : p.2 = dst
    · obtain rfl : p = (src, dst) := inj_on_of_nodup_map copying.values mem found own
      obtain rfl : zval = z := Option.some.inj (isZval.symm.trans source)
      exact ⟨zval, { z' with value := value }, source, by rw [write_self]; rw [copy]; rfl, refcount,
        isRef, fun _ => ⟨same, elements⟩⟩
    · have apart : p.1 ≠ src := fun eq =>
        own (congrArg Prod.snd (inj_on_of_nodup_map copying.keys mem found eq))
      refine ⟨z, z', source, (write_of_ne _ own _).trans copy, refcount, isRef, fun done => ?_⟩
      exact final fun isPending => by
        rcases List.mem_cons.mp isPending with eq | isPending
        · exact apart eq
        · exact done isPending

theorem Copying.settle {src dst : Addr} (copying : Copying before (src :: pending) met ctxt)
    (found : (src, dst) ∈ ctxt.copied) {zval zval' : Zval} (isZval : before.cells src = some zval)
    (isCopy : ctxt.heap.cells dst = some zval')
    (same : SameValue (copyOf ctxt.copied) zval.value zval'.value)
    (elements : ∀ b ∈ zval.value.elements, b ∈ ctxt.copied.map Prod.fst) :
    Copying before pending met ctxt := by
  have finished := copying.finish found isZval same elements
  have unchanged : ctxt.write dst ((ctxt.heap.cells dst).map fun zval =>
      { zval with value := zval'.value }) = ctxt := by
    rw [isCopy]
    show ctxt.write dst (some zval') = ctxt
    rw [← isCopy]
    simp [Context.write]
  rwa [unchanged] at finished

end

/-! ## The recursion -/

def unmet (nodes : List Addr) (ctxt : Context) : Nat :=
  (nodes.filter fun a => a ∉ ctxt.copied.map Prod.fst).length

/-- From `met` and `ctxt` the zvals `srcs` have been copied: what has been met since are
these, and the elements of the zvals that have been copied since. -/
structure Grown (before : Heap) (nodes pending met : List Addr) (ctxt : Context)
    (srcs : List Addr) (met' : List Addr) (ctxt' : Context) : Prop where
  copying : Copying before pending met' ctxt'
  next : ctxt.heap.next ≤ ctxt'.heap.next
  table : ∃ pairs, ctxt'.copied = ctxt.copied ++ pairs ∧ (∀ p ∈ pairs, p.1 ∈ nodes) ∧
    met'.Perm (met ++ srcs ++ (pairs.map Prod.fst).flatMap before.elements)

section

variable {before : Heap} {nodes pending met : List Addr} {ctxt : Context}

theorem Grown.mem {srcs met' : List Addr} {ctxt' : Context}
    (grown : Grown before nodes pending met ctxt srcs met' ctxt') {p : Addr × Addr}
    (mem : p ∈ ctxt.copied) : p ∈ ctxt'.copied := by
  obtain ⟨pairs, table, -⟩ := grown.table
  rw [table]
  exact mem_append_left _ mem

theorem Grown.unmet_le {srcs met' : List Addr} {ctxt' : Context}
    (grown : Grown before nodes pending met ctxt srcs met' ctxt') :
    unmet nodes ctxt' ≤ unmet nodes ctxt := by
  refine List.Sublist.length_le (List.monotone_filter_right _ fun a absent => ?_)
  simp only [decide_eq_true_eq] at absent ⊢
  intro mem
  obtain ⟨p, isPair, rfl⟩ := List.mem_map.mp mem
  exact absent (mem_map_of_mem (grown.mem isPair))

theorem Grown.trans {srcs srcs' met' met'' : List Addr} {ctxt' ctxt'' : Context}
    (first : Grown before nodes pending met ctxt srcs met' ctxt')
    (second : Grown before nodes pending met' ctxt' srcs' met'' ctxt'') :
    Grown before nodes pending met ctxt (srcs ++ srcs') met'' ctxt'' := by
  obtain ⟨pairs, table, inside, perm⟩ := first.table
  obtain ⟨pairs', table', inside', perm'⟩ := second.table
  refine ⟨second.copying, first.next.trans second.next, pairs ++ pairs', ?_, ?_, ?_⟩
  · rw [table', table, append_assoc]
  · exact List.forall_mem_append.mpr ⟨inside, inside'⟩
  · rw [map_append, List.flatMap_append]
    refine perm'.trans ?_
    refine ((perm.append_right srcs').append_right _).trans ?_
    simp only [append_assoc]
    refine (List.Perm.append_left met (List.Perm.append_left srcs ?_))
    rw [← append_assoc, ← append_assoc]
    exact List.Perm.append_right _ List.perm_append_comm

theorem elements_of_cell {addr : Addr} {zval : Zval} (cell : before.cells addr = some zval) :
    before.elements addr = zval.value.elements := by
  simp only [Heap.elements, cell]

end

/-- A graph and its copy: an injective map of the zvals that keeps the values, and keeps
the mark of a reference where more than one position leads to it. -/
structure Isomorphism {heap : Heap} {root : Addr} (graph : Graph heap root) (heap' : Heap)
    (root' : Addr) (map : Addr → Addr) : Prop where
  root : map root = root'
  injective : ∀ a ∈ graph.nodes, ∀ b ∈ graph.nodes, map a = map b → a = b
  cell : ∀ a ∈ graph.nodes, ∃ zval zval', heap.cells a = some zval ∧
    heap'.cells (map a) = some zval' ∧ SameValue map zval.value zval'.value ∧
    zval'.isRef = (zval.isRef && decide (2 ≤ graph.meetings a))
  given : ∀ a ∈ graph.nodes, map a < heap'.next

theorem sameBuckets_trans {map map' : Addr → Addr} {list list' list'' : List Bucket}
    (first : List.Forall₂ (SameBucket map) list list')
    (second : List.Forall₂ (SameBucket map') list' list'') :
    List.Forall₂ (SameBucket (map' ∘ map)) list list'' := by
  induction first generalizing list'' with
  | nil => cases second; exact .nil
  | cons head tail ih =>
    cases second with
    | cons head' tail' =>
      exact .cons ⟨head'.1.trans head.1, head'.2.1.trans head.2.1,
        head'.2.2.trans (congrArg map' head.2.2)⟩ (ih tail')

theorem SameValue.trans {map map' : Addr → Addr} {value value' value'' : Value}
    (first : SameValue map value value') (second : SameValue map' value' value'') :
    SameValue (map' ∘ map) value value'' := by
  match value, value', value'', first, second with
  | .scalar _, .scalar _, .scalar _, first, second => exact Eq.trans second first
  | .string _, .string _, .string _, first, second => exact Eq.trans second first
  | .array _, .array _, .array _, ⟨buckets, size, next, _⟩, ⟨buckets', size', next', hashed⟩ =>
    exact ⟨sameBuckets_trans buckets buckets', size'.trans size, next'.trans next, hashed⟩

section

variable {heap heap' : Heap} {root root' : Addr} {graph : Graph heap root} {map : Addr → Addr}

theorem Isomorphism.elements (isomorphism : Isomorphism graph heap' root' map) {a : Addr}
    (isNode : a ∈ graph.nodes) : heap'.elements (map a) = (heap.elements a).map map := by
  obtain ⟨zval, zval', source, copy, same, -⟩ := isomorphism.cell a isNode
  rw [elements_of_cell source, elements_of_cell copy, same.elements]

def Isomorphism.image (isomorphism : Isomorphism graph heap' root' map) : Graph heap' root' where
  nodes := graph.nodes.map map
  nodup := graph.nodup.map_on isomorphism.injective
  root_mem := isomorphism.root ▸ mem_map_of_mem graph.root_mem
  allocated := by
    intro a' member
    obtain ⟨a, isNode, rfl⟩ := List.mem_map.mp member
    obtain ⟨zval, zval', -, copy, -⟩ := isomorphism.cell a isNode
    exact ⟨isomorphism.given a isNode, Option.isSome_iff_exists.mpr ⟨zval', copy⟩⟩
  closed := by
    intro a' member b' isElement
    obtain ⟨a, isNode, rfl⟩ := List.mem_map.mp member
    rw [isomorphism.elements isNode] at isElement
    obtain ⟨b, isElement', rfl⟩ := List.mem_map.mp isElement
    exact mem_map_of_mem (graph.closed a isNode b isElement')
  reached := by
    intro part hasRoot closed a' member
    obtain ⟨a, isNode, rfl⟩ := List.mem_map.mp member
    have inside := graph.reached (graph.nodes.filter fun a => map a ∈ part) (by
      rw [List.mem_filter]
      exact ⟨graph.root_mem, by simpa [isomorphism.root] using hasRoot⟩) (by
      intro a member b isElement
      obtain ⟨isNode, inPart⟩ := List.mem_filter.mp member
      refine List.mem_filter.mpr ⟨graph.closed a isNode b isElement, ?_⟩
      have image : map b ∈ heap'.elements (map a) := by
        rw [isomorphism.elements isNode]
        exact mem_map_of_mem isElement
      simpa using closed _ (by simpa using inPart) _ image) isNode
    simpa using (List.mem_filter.mp inside).2

theorem count_map_of_injOn {list : List Addr} {map : Addr → Addr} {a : Addr}
    (injective : ∀ b ∈ list, map b = map a → b = a) :
    (list.map map).count (map a) = list.count a := by
  induction list with
  | nil => rfl
  | cons b list ih =>
    have tail := ih fun c mem => injective c (by simp [mem])
    by_cases same : b = a
    · simp [same, tail]
    · have apart : map b ≠ map a := fun eq => same (injective b (by simp) eq)
      simp [same, apart, tail]

theorem Isomorphism.meetings (isomorphism : Isomorphism graph heap' root' map) {a : Addr}
    (isNode : a ∈ graph.nodes) : isomorphism.image.meetings (map a) = graph.meetings a := by
  have elements : (graph.nodes.map map).flatMap heap'.elements =
      (graph.nodes.flatMap heap.elements).map map := by
    rw [List.flatMap_map, List.map_flatMap]
    exact List.flatMap_congr fun b isNode => isomorphism.elements isNode
  have all : root' :: (graph.nodes.map map).flatMap heap'.elements =
      (root :: graph.nodes.flatMap heap.elements).map map := by
    rw [elements, map_cons, isomorphism.root]
  show (root' :: (graph.nodes.map map).flatMap heap'.elements).count (map a) = _
  rw [all]
  refine count_map_of_injOn fun b mem same => isomorphism.injective b ?_ a isNode same
  rcases List.mem_cons.mp mem with rfl | isElement
  · exact graph.root_mem
  · obtain ⟨c, isNode, isElement⟩ := List.mem_flatMap.mp isElement
    exact graph.closed c isNode b isElement

theorem Isomorphism.trans {heap'' : Heap} {root'' : Addr} {map' : Addr → Addr}
    (isomorphism : Isomorphism graph heap' root' map)
    (isomorphism' : Isomorphism isomorphism.image heap'' root'' map') :
    Isomorphism graph heap'' root'' (map' ∘ map) := by
  have image : ∀ a ∈ graph.nodes, map a ∈ isomorphism.image.nodes := fun a isNode =>
    mem_map_of_mem isNode
  refine ⟨(congrArg map' isomorphism.root).trans isomorphism'.root, fun a isNode b isNode' same => ?_,
    fun a isNode => ?_, fun a isNode => isomorphism'.given _ (image a isNode)⟩
  · exact isomorphism.injective a isNode b isNode'
      (isomorphism'.injective _ (image a isNode) _ (image b isNode') same)
  · obtain ⟨z, z', source, copy, same, isRef⟩ := isomorphism.cell a isNode
    obtain ⟨w, w', source', copy', same', isRef'⟩ := isomorphism'.cell _ (image a isNode)
    obtain rfl : z' = w := Option.some.inj (copy.symm.trans source')
    refine ⟨z, w', source, copy', same.trans same', ?_⟩
    rw [isRef', isRef, isomorphism.meetings isNode, Bool.and_assoc, Bool.and_self]

def Heap.walk (heap : Heap) : Addr → List Nat → Option Addr
  | a, [] => some a
  | a, place :: path =>
    match (heap.elements a)[place]? with
    | none => none
    | some b => heap.walk b path

theorem Isomorphism.walk (isomorphism : Isomorphism graph heap' root' map) {a : Addr}
    (isNode : a ∈ graph.nodes) (path : List Nat) :
    heap'.walk (map a) path = (heap.walk a path).map map := by
  induction path generalizing a with
  | nil => rfl
  | cons place path ih =>
    simp only [Heap.walk, isomorphism.elements isNode, List.getElem?_map]
    cases at_place : (heap.elements a)[place]? with
    | none => rfl
    | some b => exact ih (graph.closed a isNode b (List.mem_of_getElem? at_place))

end

/-- `$a = ["self" => &$b]` with `$b = [0 => &$b, 1 => &$b]`. -/
def cyclicHeap : Heap where
  next := 2
  cells
    | 0 => some ⟨.array ⟨8, 0, [⟨7, some [115, 101, 108, 102], 1⟩], fun _ => [], none⟩, 1, false⟩
    | 1 => some ⟨.array ⟨8, 2, [⟨0, none, 1⟩, ⟨1, none, 1⟩], fun _ => [], none⟩, 3, true⟩
    | _ => none

def cyclicGraph : Graph cyclicHeap 0 where
  nodes := [0, 1]
  nodup := by decide
  root_mem := by decide
  allocated := by decide
  closed := by decide
  reached := by
    intro part hasRoot closed
    have second : 1 ∈ part := closed 0 hasRoot 1 (by decide)
    intro a isNode
    rcases List.mem_cons.mp isNode with rfl | isNode
    · exact hasRoot
    · obtain rfl := List.mem_singleton.mp isNode
      exact second

end PhpExts.Apcu.Copy
