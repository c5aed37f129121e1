import PhpExts.Library.Linked
import Mathlib.Data.List.Perm.Basic

/-!
# The fixed pool

`FixedPool.c` cuts the memory of a pool into slices, each with a header in front of its data, and
links the headers both ways. The free slices come first: `swFixedPool_alloc` takes the head and puts
it behind the tail, `swFixedPool_free` takes a slice out and puts it in front of the head.

A null pointer is zero. Without a result a null pointer is followed, or an assertion fails.
-/

namespace PhpExts.Swoole.FixedPool

open PhpExts.Library Function
open List (append_assoc cons_append isChain_cons_cons mem_cons mem_cons_self mem_map nodup_cons)

/-- The size of a `swFixedPool_slice` without its data. -/
def sliceHeader : Nat := 24

/-- The memory of a pool with two slices at least, which an `uint32_t` can count. -/
structure Layout where
  memory : Nat
  size : Nat
  sliceSize : Nat
  nonNull : 0 < memory
  two : sliceHeader + sliceSize < size
  most : size ≤ 0xFFFFFFFF * (sliceHeader + sliceSize)

def Layout.stride (layout : Layout) : Nat := sliceHeader + layout.sliceSize

/-- `swFixedPool`, with the headers of the slices at their addresses. -/
structure SwFixedPool where
  head : Nat
  tail : Nat
  next : Nat → Nat
  pre : Nat → Nat
  lock : Nat → Bool
  sliceUse : Nat

/-- The body of the loop of `swFixedPool_init`, up to the link to what is behind the slice. -/
def initSlice (slice : Nat) (object : SwFixedPool) : SwFixedPool :=
  let next := update object.next slice 0
  let pre := update object.pre slice 0
  let lock := update object.lock slice false
  if object.head ≠ 0 then
    { object with
      head := slice, next := update next slice object.head, pre := update pre object.head slice
      lock }
  else { object with head := slice, tail := slice, next, pre, lock }

/-- The loop of `swFixedPool_init`. -/
def initLoop (layout : Layout) (cur : Nat) (object : SwFixedPool) : SwFixedPool :=
  let linked := initSlice cur object
  let behind := cur + layout.stride
  if behind < layout.memory + layout.size then
    initLoop layout behind { linked with pre := update linked.pre cur behind }
  else { linked with pre := update linked.pre cur 0 }
termination_by layout.memory + layout.size - cur
decreasing_by simp only [Layout.stride, sliceHeader] at *; omega

/-- `swFixedPool_init`, in memory with any contents. -/
def swFixedPoolInit (layout : Layout) (contents : SwFixedPool) : SwFixedPool :=
  initLoop layout layout.memory { contents with head := 0, tail := 0, sliceUse := 0 }

/-- `swFixedPool_alloc`, with the pointer it returns. -/
def swFixedPoolAlloc (object : SwFixedPool) : Option (Nat × SwFixedPool) :=
  let slice := object.head
  if slice = 0 then none
  else if object.lock slice then some (0, object)
  else if object.next slice = 0 ∨ object.tail = 0 then none
  else some (slice + sliceHeader,
    { head := object.next slice
      tail := slice
      next := update (update object.next object.tail slice) slice 0
      pre := update (update object.pre (object.next slice) 0) slice object.tail
      lock := update object.lock slice true
      sliceUse := (object.sliceUse + 1) % 0x100000000 })

/-- The end of `swFixedPool_free`, where the slice is put in front of the head. -/
def toHead (slice : Nat) (object : SwFixedPool) : Option SwFixedPool :=
  if object.head = 0 then none
  else some
    { object with
      head := slice
      next := update object.next slice object.head
      pre := update (update object.pre slice 0) object.head slice }

/-- The links in `swFixedPool_free`. -/
def relink (slice : Nat) (object : SwFixedPool) : Option SwFixedPool :=
  let pre := object.pre slice
  let next := object.next slice
  if pre = 0 then some object
  else if next = 0 then toHead slice { object with next := update object.next pre 0, tail := pre }
  else toHead slice
    { object with next := update object.next pre next, pre := update object.pre next pre }

def swFixedPoolFree (layout : Layout) (ptr : Nat) (object : SwFixedPool) : Option SwFixedPool :=
  if layout.memory < ptr ∧ ptr < layout.memory + layout.size then
    let slice := ptr - sliceHeader
    relink slice
      { object with
        lock := update object.lock slice false
        sliceUse := if object.lock slice then (object.sliceUse + 0xFFFFFFFF) % 0x100000000
          else object.sliceUse }
  else none

/-- The slices that `swFixedPool_init` has laid after `n` rounds, the last one first. -/
def Layout.slices (layout : Layout) : Nat → List Nat
  | 0 => []
  | n + 1 => (layout.memory + n * layout.stride) :: layout.slices n

def Layout.count (layout : Layout) : Nat := (layout.size - 1) / layout.stride + 1

/-- The states of a pool, with the pointers that are allocated: `swFixedPool_free` is called with
these only. -/
inductive Run (layout : Layout) : List Nat → SwFixedPool → Prop where
  | init (contents : SwFixedPool) : Run layout [] (swFixedPoolInit layout contents)
  | alloc {used : List Nat} {object object' : SwFixedPool} {ptr : Nat}
      (run : Run layout used object) (step : swFixedPoolAlloc object = some (ptr, object')) :
      Run layout (if ptr = 0 then used else ptr :: used) object'
  | free {used : List Nat} {object object' : SwFixedPool} {ptr : Nat} (run : Run layout used object)
      (allocated : ptr ∈ used) (step : swFixedPoolFree layout ptr object = some object') :
      Run layout (used.erase ptr) object'

abbrev Chained (object : SwFixedPool) (nodes : List Nat) : Prop :=
  Linked.Ring (update object.next 0 object.head) (update object.pre 0 object.tail) 0 nodes

structure Pooled (layout : Layout) (used : List Nat) (object : SwFixedPool)
    (free busy : List Nat) : Prop where
  chained : Chained object (free ++ busy)
  slices : (free ++ busy).Perm (layout.slices layout.count)
  unlocked : ∀ x ∈ free, object.lock x = false
  locked : ∀ x ∈ busy, object.lock x = true
  allocated : used.Perm (busy.map (· + sliceHeader))
  use : object.sliceUse = used.length

section

variable {object : SwFixedPool} {c x : Nat} {nodes front back : List Nat}

theorem Chained.head_eq (chained : Chained object (x :: nodes)) : object.head = x := by
  have next := (isChain_cons_cons.mp chained.linked).1.1
  rwa [update_self] at next

theorem Chained.toHead (chained : Chained object nodes) (some_ : nodes ≠ [])
    (new : c ∉ 0 :: nodes) :
    ∃ object', toHead c object = some object' ∧ Chained object' (c :: nodes)
      ∧ object'.lock = object.lock ∧ object'.sliceUse = object.sliceUse := by
  obtain ⟨x, rest, rfl⟩ := List.exists_cons_of_ne_nil some_
  obtain rfl := chained.head_eq.symm
  have head : object.head ≠ 0 := fun eq => (nodup_cons.mp chained.nodup).1 (by simp [eq])
  have null : c ≠ 0 := fun eq => new (by simp [eq])
  refine ⟨_, if_neg head, (chained.insertFirst new).congr (fun y => ?_) fun y => ?_, rfl, rfl⟩
  all_goals
    simp only [update_apply]
    grind

theorem Chained.relink (chained : Chained object (front ++ c :: back)) :
    ∃ object', relink c object = some object' ∧ Chained object' (c :: (front ++ back))
      ∧ object'.lock = object.lock ∧ object'.sliceUse = object.sliceUse := by
  have nodup := (List.perm_middle.cons 0).nodup_iff.mp chained.nodup
  rw [(List.Perm.swap c 0 _).nodup_iff] at nodup
  have new := (nodup_cons.mp nodup).1
  have null : c ≠ 0 := fun eq => new (by simp [eq])
  rcases List.eq_nil_or_concat' front with rfl | ⟨front, p, rfl⟩
  · have first : object.pre c = 0 := by
      have prev := (isChain_cons_cons.mp chained.linked).1.2
      rwa [update_of_ne null] at prev
    exact ⟨object, if_pos first, chained, rfl, rfl⟩
  have cut := chained.cut
  have linked := chained.linked
  rw [append_assoc, append_assoc, ← cons_append] at linked
  obtain ⟨-, ⟨-, pre⟩, behind⟩ := Linked.split.mp linked
  rw [update_of_ne null] at pre cut
  rw [update_of_ne null] at cut
  have before : object.pre c ≠ 0 := fun eq =>
    (nodup_cons.mp chained.nodup).1 (by simp [← eq, pre])
  rw [FixedPool.relink, if_neg before]
  split_ifs with last
  all_goals
    refine Chained.toHead (cut.congr (fun y => ?_) fun y => ?_) (by simp) new
    all_goals
      simp only [update_apply]
      grind

theorem Chained.rotate (chained : Chained object (c :: x :: nodes)) (lock : Nat → Bool)
    (sliceUse : Nat) :
    object.next c = x ∧ object.tail ≠ 0
      ∧ Chained ⟨x, c, update (update object.next object.tail c) c 0,
        update (update object.pre x 0) c object.tail, lock, sliceUse⟩ (x :: nodes ++ [c]) := by
  have head := chained.head_eq
  have nodup := chained.nodup
  rw [(List.Perm.swap c 0 _).nodup_iff] at nodup
  obtain ⟨new, apart⟩ := nodup_cons.mp nodup
  have null : c ≠ 0 := fun eq => new (by simp [eq])
  have other : x ≠ 0 := fun eq => (nodup_cons.mp apart).1 (by simp [eq])
  obtain ⟨⟨-, pre⟩, rest⟩ := isChain_cons_cons.mp chained.linked
  obtain ⟨⟨next, -⟩, -⟩ := isChain_cons_cons.mp rest
  have chained' : Chained object ([] ++ c :: x :: nodes) := chained
  have cut := chained'.cut
  rw [next, pre] at cut
  have tail := cut.prev_mem (by simp)
  rw [update_of_ne (Ne.symm other), update_self] at tail
  have behind : object.tail ≠ c := fun eq => new (List.mem_cons_of_mem _ (eq ▸ tail))
  rw [update_of_ne null] at next
  refine ⟨next, fun eq => (nodup_cons.mp apart).1 (eq ▸ tail),
    (cut.insertLast new).congr (fun y => ?_) fun y => ?_⟩
  all_goals
    simp only [update_apply]
    grind

end

/-! ## Laying the slices -/

section

variable {layout : Layout} {object : SwFixedPool}

theorem length_slices (n : Nat) : (layout.slices n).length = n := by
  induction n with
  | zero => rfl
  | succ n ih => rw [Layout.slices, List.length_cons, ih]

theorem stride_pos (layout : Layout) : 0 < layout.stride := Nat.add_pos_left (by decide) _

abbrev Laid (object : SwFixedPool) (nodes : List Nat) : Prop :=
  Linked.Ring (update object.next 0 object.head)
    (update (update object.pre object.head 0) 0 object.tail) 0 nodes

theorem Laid.round {nodes : List Nat} {slice : Nat} (laid : Laid object nodes)
    (new : slice ∉ 0 :: nodes) (behind : Nat) :
    Laid { initSlice slice object with
      pre := update (initSlice slice object).pre slice behind } (slice :: nodes) := by
  have null : slice ≠ 0 := fun eq => new (by simp [eq])
  have inserted := laid.insertFirst new
  have apart : object.head ≠ slice := fun eq => by
    have inside := laid.next_mem
    rw [update_self, eq] at inside
    exact new inside
  rw [initSlice]
  split_ifs with head
  all_goals
    refine inserted.congr (fun y => ?_) fun y => ?_
    all_goals
      simp only [update_apply]
      grind

end

section

variable {layout : Layout} {used free busy : List Nat} {object : SwFixedPool}

theorem Pooled.length_le (pooled : Pooled layout used object free busy) :
    free.length + used.length = layout.count ∧ layout.count ≤ 0xFFFFFFFF := by
  have length := pooled.slices.length_eq
  have allocated := pooled.allocated.length_eq
  rw [List.length_append, length_slices] at length
  rw [List.length_map] at allocated
  have most := layout.most
  have positive := stride_pos layout
  have two := layout.two
  refine ⟨by omega, ?_⟩
  rw [Layout.count, Nat.add_one_le_iff, Nat.div_lt_iff_lt_mul positive]
  exact Nat.lt_of_lt_of_le (by omega) most

theorem Pooled.alloc {x : Nat} (pooled : Pooled layout used object (x :: free) busy) :
    ∃ object', swFixedPoolAlloc object = some (x + sliceHeader, object')
      ∧ Pooled layout ((x + sliceHeader) :: used) object' free (busy ++ [x]) := by
  obtain ⟨total, most⟩ := pooled.length_le
  have two : 1 ≤ (layout.size - 1) / layout.stride := by
    have := layout.two
    rw [Nat.le_div_iff_mul_le (stride_pos layout), Nat.one_mul, Layout.stride]
    omega
  have slices := pooled.slices
  have chained := pooled.chained
  rw [cons_append] at slices chained
  obtain ⟨y, rest, split⟩ : ∃ y rest, free ++ busy = y :: rest := by
    refine List.exists_cons_of_ne_nil fun empty => ?_
    have length := slices.length_eq
    rw [empty, length_slices, Layout.count, List.length_singleton] at length
    omega
  rw [split] at chained
  have null := (nodup_cons.mp chained.nodup).1
  have new := (nodup_cons.mp (nodup_cons.mp chained.nodup).2).1
  have head := chained.head_eq
  obtain ⟨next, tail, rotated⟩ := chained.rotate (update object.lock x true)
    ((object.sliceUse + 1) % 0x100000000)
  have some_ : x ≠ 0 := fun eq => null (eq ▸ mem_cons_self)
  have behind : y ≠ 0 := fun eq => null (by simp [eq])
  have unlocked := pooled.unlocked x mem_cons_self
  have step := swFixedPoolAlloc.eq_1 object
  simp only [head, next, unlocked, if_neg some_, if_neg (not_or.mpr ⟨behind, tail⟩),
    Bool.false_eq_true, if_false] at step
  refine ⟨_, step, ?_, ?_, fun z mem => ?_, fun z mem => ?_, ?_, ?_⟩
  · rw [← append_assoc, split]
    exact rotated
  · rw [← append_assoc]
    exact (List.perm_append_singleton x _).trans slices
  · have other : z ≠ x := fun eq => new (split ▸ List.mem_append_left _ (eq ▸ mem))
    exact (update_of_ne other _ _).trans (pooled.unlocked z (List.mem_cons_of_mem _ mem))
  · rcases List.mem_append.mp mem with mem | here
    · simp [update_apply, pooled.locked z mem]
    · simp [List.mem_singleton.mp here]
  · rw [List.map_append]
    exact (pooled.allocated.cons _).trans (List.perm_append_singleton _ _).symm
  · have use := pooled.use
    rw [List.length_cons] at total ⊢
    simp only [use]
    omega

end

end PhpExts.Swoole.FixedPool
