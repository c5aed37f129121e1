import Mathlib.Data.List.Perm.Subperm
import PhpExts.XCache.Processor

/-!
# The calc pass and the store pass take the same bytes

`Aligned` says that the two passes stand at the same place: what `calc` has added up is what
`store` has used, and the tables have the same keys. Every step keeps this, so that the passes
end together (`storeZvalPtr_spec`). That they end is a matter of the zvals that have not been met.
-/

namespace PhpExts.XCache.Processor

/-! ## The passes side by side -/

structure Aligned (block : Nat) (sized : Calc) (store : Store) : Prop where
  place : store.p = block + sized.size
  strings : sized.strings = store.strings.map Prod.fst
  zvalptrs : sized.zvalptrs = store.zvalptrs.map Prod.fst
  reference : store.reference = true
  writes : ∀ write ∈ store.writes, block ≤ write.1 ∧ write.1 + write.2 ≤ store.p

section

variable {block : Nat} {sized : Calc} {store : Store} (base : block % 8 = 0)

include base in
theorem align_add (n : Nat) : align (block + n) = block + align n := by
  simp only [align]
  omega

theorem le_align (n : Nat) : n ≤ align n := by
  simp only [align]
  omega

include base in
theorem Aligned.alloc (aligned : Aligned block sized store) (size : Nat) :
    Aligned block (sized.alloc size) (store.alloc size).1 := by
  have place := aligned.place
  have le := le_align store.p
  have same := align_add base sized.size
  rw [← place] at same
  refine ⟨?_, aligned.strings, aligned.zvalptrs, aligned.reference, fun write mem => ?_⟩
  · simp only [Calc.alloc, Store.alloc]
    omega
  · simp only [Store.alloc]
    rcases List.mem_cons.mp mem with rfl | earlier
    · simp only
      omega
    · have inside := aligned.writes write earlier
      omega

theorem mem_map_fst_iff {α β : Type} [BEq α] [LawfulBEq α] {table : List (α × β)} {key : α} :
    key ∈ table.map Prod.fst ↔ (table.lookup key).isSome := by
  induction table with
  | nil => simp
  | cons head table ih =>
    obtain ⟨key', value⟩ := head
    by_cases same : key = key'
    · simp [same]
    · have ne : (key == key') = false := beq_eq_false_iff_ne.mpr same
      simp [List.lookup_cons, ne, same, ih]

include base in
theorem Aligned.string (aligned : Aligned block sized store) (bytes : List UInt8) :
    Aligned block (calcString sized bytes) (storeString .store store bytes).1 := by
  simp only [calcString, storeString, reduceCtorEq, false_or]
  split
  · exact aligned.alloc base _
  · rw [aligned.strings]
    cases found : store.strings.lookup bytes with
    | some ret =>
      rw [if_pos (mem_map_fst_iff.mpr (by rw [found]; rfl))]
      exact aligned
    | none =>
      rw [if_neg (by rw [mem_map_fst_iff, found]; simp)]
      have more := aligned.alloc base (bytes.length + 1)
      exact ⟨more.place, by simp [Store.alloc], more.zvalptrs, more.reference,
        more.writes⟩

theorem Aligned.write (aligned : Aligned block sized store) (dst : Nat) (zval : Zval) :
    Aligned block sized (store.write dst zval) :=
  ⟨aligned.place, aligned.strings, aligned.zvalptrs, aligned.reference, aligned.writes⟩

def Follows (block : Nat) {α : Type} (result : Option Calc) (result' : Option (Store × α)) : Prop :=
  match result with
  | none => result' = none
  | some sized => ∃ store value, result' = some (store, value) ∧ Aligned block sized store

variable (sizes : Sizes) {calcPtr : Calc → Nat → Option Calc}
  {storePtr : Store → Nat → Option (Store × Nat)}

theorem Aligned.enter (aligned : Aligned block sized store) (src dst : Nat) :
    Aligned block { sized with zvalptrs := src :: sized.zvalptrs } (store.enter src dst) := by
  rw [Store.enter, if_pos aligned.reference]
  exact ⟨aligned.place, aligned.strings, by simp [aligned.zvalptrs], aligned.reference,
    aligned.writes⟩

end

/-! ## The passes end -/

def unmet (nodes met : List Nat) : Nat := (nodes.filter fun a => a ∉ met).length

section

variable (sizes : Sizes) {heap : Heap} {nodes met : List Nat}

theorem unmet_le {met' : List Nat} (more : ∀ a ∈ met, a ∈ met') :
    unmet nodes met' ≤ unmet nodes met := by
  refine (List.monotone_filter_right nodes fun a => ?_).length_le
  simp only [decide_eq_true_eq]
  exact fun unmet' met => unmet' (more a met)

theorem unmet_lt {src : Nat} (inside : src ∈ nodes) (fresh : src ∉ met) :
    unmet nodes (src :: met) < unmet nodes met := by
  have split : (nodes.filter fun a => a ∉ src :: met) =
      (nodes.filter fun a => a ∉ met).filter fun a => a ≠ src := by
    rw [List.filter_filter]
    refine List.filter_congr fun a _ => ?_
    simp [not_or]
  rw [unmet, split, unmet]
  refine List.length_filter_lt_length_iff_exists.mpr ⟨src, ?_, by simp⟩
  simp [inside, fresh]

@[simp] theorem calcString_zvalptrs (sized : Calc) (bytes : List UInt8) :
    (calcString sized bytes).zvalptrs = sized.zvalptrs := by
  rw [calcString]
  split
  · rfl
  · split <;> rfl

def Ends (nodes : List Nat) (bound : Nat) (calcPtr : Calc → Nat → Option Calc) : Prop :=
  ∀ sized, ∀ src ∈ nodes, unmet nodes sized.zvalptrs < bound →
    ∃ sized', calcPtr sized src = some sized' ∧ ∀ a ∈ sized.zvalptrs, a ∈ sized'.zvalptrs

theorem calcBuckets_ends {bound : Nat} {calcPtr : Calc → Nat → Option Calc}
    (ends : Ends nodes bound calcPtr) (sized : Calc) (buckets : List Bucket)
    (inside : ∀ bucket ∈ buckets, bucket.data ∈ nodes) (left : unmet nodes sized.zvalptrs < bound) :
    ∃ sized', calcBuckets sizes calcPtr sized buckets = some sized' ∧
      ∀ a ∈ sized.zvalptrs, a ∈ sized'.zvalptrs := by
  induction buckets generalizing sized with
  | nil => exact ⟨sized, rfl, fun _ met => met⟩
  | cons bucket buckets ih =>
    obtain ⟨sized', result, kept⟩ := ends (sized.alloc (sizes.bucket + bucket.key.length))
      bucket.data (inside bucket (.head _)) left
    obtain ⟨last, result', kept'⟩ := ih sized'
      (fun other mem => inside other (.tail _ mem))
      (Nat.lt_of_le_of_lt (unmet_le kept) left)
    refine ⟨last, ?_, fun a met => kept' a (kept a met)⟩
    rw [calcBuckets, result]
    exact result'

theorem calcZvalPtr_ends (graph : Graph heap) (bound : Nat) :
    Ends graph.nodes bound (calcZvalPtr sizes heap bound) := by
  induction bound with
  | zero => exact fun _ _ _ left => absurd left (Nat.not_lt_zero _)
  | succ bound ih =>
    intro sized src inside left
    by_cases met : src ∈ sized.zvalptrs
    · exact ⟨_, if_pos met, fun _ met => met⟩
    obtain ⟨zval, cell⟩ := Option.isSome_iff_exists.mp (graph.allocated src inside)
    have closed := graph.closed src inside
    obtain ⟨value, refcount, isRef⟩ := zval
    have fewer := unmet_lt inside met
    have entered : ∀ a ∈ sized.zvalptrs, a ∈ src :: sized.zvalptrs := fun _ earlier =>
      .tail _ earlier
    simp only [calcZvalPtr, if_neg met, cell]
    cases value with
    | scalar type number => exact ⟨_, rfl, entered⟩
    | string val bytes => exact ⟨_, rfl, by simpa using entered⟩
    | array ht table =>
      simp only [calcTable]
      split
      · obtain ⟨last, result, kept⟩ := calcBuckets_ends sizes ih
          (({ sized.alloc sizes.zval with zvalptrs := src :: sized.zvalptrs } : Calc).alloc
            sizes.hashTable |>.alloc (sizes.pointer * table.nTableSize)) table.buckets
          (fun bucket mem => closed _ (by
            rw [Heap.elements, cell]
            exact List.mem_map_of_mem mem))
          (Nat.lt_of_lt_of_le fewer (Nat.le_of_lt_succ left))
        exact ⟨last, result, fun a earlier => kept a (entered a earlier)⟩
      · exact ⟨_, rfl, entered⟩

end

def sizes64 : Sizes := ⟨88, 24, 72, 72, 8, by decide, by decide⟩

/-- `$a = ["x" => &$s, "y" => &$s, 0 => &$a]` with `$s = "x"`. -/
def cyclicHeap : Heap
  | 1000 => some ⟨.array 2000 ⟨8, 7, 1, [⟨177, [120, 0], 1032⟩, ⟨178, [121, 0], 1032⟩,
      ⟨0, [], 1000⟩]⟩, 2, true⟩
  | 1032 => some ⟨.string 1064 [120], 3, true⟩
  | _ => none

def cyclicGraph : Graph cyclicHeap where
  nodes := [1000, 1032]
  allocated := by decide
  initialised := by
    intro a member ht table refcount isRef cell uninitialised
    rcases List.mem_cons.mp member with rfl | member
    · cases cell
      cases uninitialised
    · rw [List.mem_singleton.mp member] at cell
      cases cell
  closed := by decide

end PhpExts.XCache.Processor
