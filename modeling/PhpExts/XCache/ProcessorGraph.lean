import PhpExts.XCache.ProcessorSizes
import Mathlib

/-!
# Copying a graph of zvals

`CopyList` is what a pass that copies does to a list of zvals, whatever else it allocates: a zval
that is in the table leads to its copy, and another one gets a copy, is entered and is filled from
the copies of its elements. `CopyList.spec` says what comes out: the table is one to one, and the
copies have the values of the originals over the copies of the elements. Both passes follow it.
-/

namespace PhpExts.XCache.Processor

open Function (update update_of_ne update_self)

/-! ## Values over their elements -/

def Zval.elements (zval : Zval) : List Nat :=
  match zval.value with
  | .array _ table => table.buckets.map Bucket.data
  | _ => []

theorem elements_of_cell {heap : Heap} {a : Nat} {zval : Zval} (cell : heap a = some zval) :
    heap.elements a = zval.elements := by
  obtain ⟨value, refcount, isRef⟩ := zval
  cases value <;> simp [Heap.elements, cell, Zval.elements]

def SameKeys (zval zval' : Zval) : Prop :=
  zval'.refcount = zval.refcount ∧ zval'.isRef = zval.isRef ∧
    match zval.value, zval'.value with
    | .scalar type value, .scalar type' value' => type' = type ∧ value' = value
    | .string _ bytes, .string _ bytes' => bytes' = bytes
    | .array _ table, .array _ table' =>
      table'.nTableSize = table.nTableSize ∧ table'.nTableMask = table.nTableMask ∧
        table'.nNextFreeElement = table.nNextFreeElement ∧
        table'.buckets.map (fun bucket => (bucket.h, bucket.key)) =
          table.buckets.map fun bucket => (bucket.h, bucket.key)
    | _, _ => False

/-! ## What a pass does -/

structure Copied where
  table : List (Nat × Nat)
  copies : Heap
  next : Nat

inductive CopyList (heap : Heap) : Copied → List Nat → Copied → List Nat → Prop where
  | nil {copied : Copied} : CopyList heap copied [] copied []
  | skip {copied copied' : Copied} {n : Nat} {srcs dsts : List Nat} :
      copied.next ≤ n → CopyList heap { copied with next := n } srcs copied' dsts →
      CopyList heap copied srcs copied' dsts
  | hit {copied copied' : Copied} {src dst : Nat} {srcs dsts : List Nat} :
      copied.table.lookup src = some dst → CopyList heap copied srcs copied' dsts →
      CopyList heap copied (src :: srcs) copied' (dst :: dsts)
  | fresh {copied filled copied' : Copied} {src dst : Nat} {n : Nat} {zval zval' : Zval}
      {srcs dsts : List Nat} :
      copied.table.lookup src = none → heap src = some zval → copied.next ≤ dst → dst < n →
      CopyList heap ⟨(src, dst) :: copied.table, copied.copies, n⟩ zval.elements filled
        zval'.elements →
      SameKeys zval zval' →
      CopyList heap ⟨filled.table, update filled.copies dst (some zval'), filled.next⟩
        srcs copied' dsts →
      CopyList heap copied (src :: srcs) copied' (dst :: dsts)

variable {heap : Heap} {copied copied' copied'' : Copied} {srcs srcs' dsts dsts' : List Nat}

theorem CopyList.append (first : CopyList heap copied srcs copied' dsts)
    (second : CopyList heap copied' srcs' copied'' dsts') :
    CopyList heap copied (srcs ++ srcs') copied'' (dsts ++ dsts') := by
  induction first with
  | nil => exact second
  | skip le _ ih => exact .skip le (ih second)
  | hit found _ ih => exact .hit found (ih second)
  | fresh missing cell low high filled same _ _ ih =>
    exact .fresh missing cell low high filled same (ih second)

theorem CopyList.mem (copies : CopyList heap copied srcs copied' dsts) :
    ∀ a ∈ copied.table.map Prod.fst, a ∈ copied'.table.map Prod.fst := by
  induction copies with
  | nil => exact fun _ met => met
  | skip _ _ ih => exact ih
  | hit _ _ ih => exact ih
  | fresh _ _ _ _ _ _ _ ih ih' =>
    exact fun a met => ih' a (ih a (.tail _ met))

/-- What has been copied of the zvals `nodes`, but for those in `pending`. -/
structure Copying (heap : Heap) (nodes pending : List Nat) (copied : Copied) : Prop where
  sources : (copied.table.map Prod.fst).Nodup
  targets : (copied.table.map Prod.snd).Nodup
  bound : ∀ entry ∈ copied.table, entry.2 < copied.next
  values : ∀ entry ∈ copied.table, entry.1 ∉ pending → ∃ zval zval',
    heap entry.1 = some zval ∧ copied.copies entry.2 = some zval' ∧ SameKeys zval zval' ∧
      List.Forall₂ (fun a d => (a, d) ∈ copied.table) zval.elements zval'.elements
  cells : ∀ d zval', copied.copies d = some zval' → ∀ c ∈ zval'.elements,
    ∃ a ∈ nodes, (a, c) ∈ copied.table

theorem mem_of_lookup {α β : Type} [BEq α] [LawfulBEq α] {table : List (α × β)} {key : α}
    {value : β} (found : table.lookup key = some value) : (key, value) ∈ table := by
  induction table with
  | nil => cases found
  | cons head table ih =>
    obtain ⟨key', value'⟩ := head
    rw [List.lookup_cons] at found
    split at found
    · rename_i same
      rw [eq_of_beq same, ← Option.some.inj found]
      exact .head _
    · exact .tail _ (ih found)

theorem exists_left {α β : Type} {relation : α → β → Prop} {as : List α} {bs : List β} {b : β}
    (pairs : List.Forall₂ relation as bs) (mem : b ∈ bs) : ∃ a ∈ as, relation a b := by
  induction pairs with
  | nil => cases mem
  | @cons a _ _ _ pair _ ih =>
    rcases List.mem_cons.mp mem with rfl | later
    · exact ⟨a, .head _, pair⟩
    · obtain ⟨a', isMember, pair'⟩ := ih later
      exact ⟨a', .tail _ isMember, pair'⟩

structure Result (heap : Heap) (nodes pending : List Nat) (copied : Copied) (srcs : List Nat)
    (copied' : Copied) (dsts : List Nat) : Prop where
  copying : Copying heap nodes pending copied'
  grown : ∀ entry ∈ copied.table, entry ∈ copied'.table
  new : ∀ entry ∈ copied'.table,
    entry ∈ copied.table ∨ copied.next ≤ entry.2 ∧ entry.1 ∈ nodes
  next : copied.next ≤ copied'.next
  pairs : List.Forall₂ (fun a d => (a, d) ∈ copied'.table) srcs dsts
  frame : ∀ d < copied.next, copied'.copies d = copied.copies d

/-- **Copies are made of what a pass is to copy, and what has been copied stays.** -/
theorem CopyList.spec {nodes pending : List Nat}
    (closed : ∀ a ∈ nodes, ∀ b ∈ heap.elements a, b ∈ nodes)
    (copies : CopyList heap copied srcs copied' dsts) (inside : ∀ a ∈ srcs, a ∈ nodes)
    (copying : Copying heap nodes pending copied) :
    Result heap nodes pending copied srcs copied' dsts := by
  induction copies generalizing pending with
  | nil => exact ⟨copying, fun _ mem => mem, fun _ mem => .inl mem, le_rfl, .nil,
      fun _ _ => rfl⟩
  | skip le _ ih =>
    obtain ⟨copying', grown, new, next, pairs, frame⟩ := ih inside ⟨copying.sources,
      copying.targets, fun entry mem => (copying.bound entry mem).trans_le le,
      copying.values, copying.cells⟩
    exact ⟨copying', grown, fun entry mem =>
      (new entry mem).imp_right fun isNew => ⟨le.trans isNew.1, isNew.2⟩,
      le.trans next, pairs, fun d low => frame d (low.trans_le le)⟩
  | hit found _ ih =>
    obtain ⟨copying', grown, new, next, pairs, frame⟩ :=
      ih (fun a mem => inside a (.tail _ mem)) copying
    exact ⟨copying', grown, new, next, .cons (grown _ (mem_of_lookup found)) pairs, frame⟩
  | @fresh copied filled copied' src dst n zval zval' srcs dsts missing cell low high _ same _ ih
      ih' =>
      have srcInside := inside src (.head _)
      have unmet : src ∉ copied.table.map Prod.fst := fun met => by
        rw [mem_map_fst_iff, missing] at met
        cases met
      have elements : ∀ a ∈ zval.elements, a ∈ nodes := fun a mem =>
        closed src srcInside a (elements_of_cell cell ▸ mem)
      -- the copy is entered, and pending
      have entered : Copying heap nodes (src :: pending)
          ⟨(src, dst) :: copied.table, copied.copies, n⟩ := by
        refine ⟨List.nodup_cons.mpr ⟨unmet, copying.sources⟩, List.nodup_cons.mpr ⟨?_,
          copying.targets⟩, fun entry mem => ?_, fun entry mem done => ?_,
          fun d zval' isCell c mem => ?_⟩
        · intro mem
          obtain ⟨entry, isEntry, eq⟩ := List.mem_map.mp mem
          have below := copying.bound entry isEntry
          simp only at eq
          omega
        · rcases List.mem_cons.mp mem with rfl | earlier
          · exact high
          · have below := copying.bound entry earlier
            simp only
            omega
        · rcases List.mem_cons.mp mem with rfl | earlier
          · exact absurd (.head _) done
          · obtain ⟨z, z', isZval, isCopy, keys, pairs⟩ := copying.values entry earlier
              fun waits => done (.tail _ waits)
            exact ⟨z, z', isZval, isCopy, keys,
              pairs.imp fun _ _ isPair => .tail _ isPair⟩
        · obtain ⟨a, isNode, isPair⟩ := copying.cells d zval' isCell c mem
          exact ⟨a, isNode, .tail _ isPair⟩
      obtain ⟨copying', grown, new, next, pairs, frame⟩ := ih elements entered
      have here := grown (src, dst) (.head _)
      -- it is filled
      have finished : Copying heap nodes pending
          ⟨filled.table, update filled.copies dst (some zval'), filled.next⟩ := by
        refine ⟨copying'.sources, copying'.targets, copying'.bound, fun entry mem done => ?_,
          fun d cell' isCell c mem => ?_⟩
        · by_cases isSrc : entry.1 = src
          · have isDst : entry = (src, dst) :=
              List.inj_on_of_nodup_map copying'.sources mem here isSrc
            subst isDst
            exact ⟨zval, zval', cell, update_self _ _ _, same, pairs⟩
          · obtain ⟨z, z', isZval, isCopy, keys, pairs'⟩ := copying'.values entry mem
              (by simpa [isSrc] using done)
            refine ⟨z, z', isZval, ?_, keys, pairs'⟩
            have away : entry.2 ≠ dst := fun eq => isSrc
              (congrArg Prod.fst (List.inj_on_of_nodup_map copying'.targets mem here eq))
            exact (update_of_ne away _ _).trans isCopy
        · by_cases isDst : d = dst
          · subst isDst
            have filledCell : update filled.copies d (some zval') d = some cell' := isCell
            rw [update_self] at filledCell
            cases filledCell
            obtain ⟨a, isElement, isPair⟩ := exists_left pairs mem
            exact ⟨a, elements a isElement, isPair⟩
          · simp only [update_of_ne isDst] at isCell
            exact copying'.cells d cell' isCell c mem
      obtain ⟨copying'', grown', new', next', pairs', frame'⟩ :=
        ih' (fun a mem => inside a (.tail _ mem)) finished
      simp only at next next' new new' frame frame'
      refine ⟨copying'', fun entry mem => grown' _ (grown _ (.tail _ mem)),
        fun entry mem => ?_, by omega, .cons (grown' _ here) pairs', fun d below => ?_⟩
      · rcases new' entry mem with earlier | ⟨high', isNode⟩
        · rcases new entry earlier with earlier | ⟨high', isNode⟩
          · rcases List.mem_cons.mp earlier with rfl | earlier
            · exact .inr ⟨low, srcInside⟩
            · exact .inl earlier
          · exact .inr ⟨by omega, isNode⟩
        · exact .inr ⟨by omega, isNode⟩
      · rw [frame' d (by omega), update_of_ne (by omega), frame d (by omega)]

end PhpExts.XCache.Processor
