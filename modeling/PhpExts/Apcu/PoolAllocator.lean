import Mathlib

/-!
# The pool allocator of APCu

A pool hands out memory from blocks it gets from another allocator. A block has a mark, from which the
next request is served; nothing is given back before the pool is destroyed. A request is rounded up to
words, with room for a red zone and for its size if the type of the pool asks for them, and is served
from one of the first eight blocks that has enough left, or from a new block whose size is the request
rounded up to a multiple of the pool's block size.

Nothing compares these sums with the range of a `size_t`. As long as they stay in it, the pool is sound
after every request, whether the allocator below has given a block or not (`sound_of_roomy`). A size
close to 2^64 is rounded to zero; the new block is empty, and the request is served from it all the same
(`not_sound`).

Memory blocks are numbered in the order in which they are got, and are aligned to words; an address is
an offset in one of them.
-/

namespace PhpExts.Apcu.PoolAllocator

/-- `size_t`. -/
def word (n : Nat) : Nat := n % 2 ^ 64

/-- A difference of `size_t`. -/
def sub (m n : Nat) : Nat := word (m + 2 ^ 64 - n)

def alignSize (x size : Nat) : Nat := word (size * word (1 + sub x 1 / size))

def alignWord (x : Nat) : Nat := alignSize x 8

def redzoneSize (size : Nat) : Nat :=
  if word (size + 4) < alignWord size then sub (alignWord size) size
  else word (sub (alignWord size) size + alignWord 1)

/-- `sizeof(pool_block)` and `sizeof(apc_realpool)`, which ends with the first block. -/
def blockHeader : Nat := 32

def poolHeader : Nat := 144

/-- A `pool_block`, with the number and the size of the memory it is in, and the offset of its data. -/
structure PoolBlock where
  memory : Nat
  bytes : Nat
  start : Nat
  avail : Nat
  capacity : Nat
  mark : Nat
  deriving DecidableEq

/-- `apc_realpool`, with the flags of its type. The blocks are listed from `head` on; `first` is the last
of them. -/
structure RealPool where
  redzones : Bool
  sizeinfo : Bool
  size : Nat
  used : Nat
  dsize : Nat
  count : Nat
  blocks : List PoolBlock
  deriving DecidableEq

/-- `apc_pool_type` under its mask. -/
inductive PoolType where
  | small | medium | large
  deriving DecidableEq

/-- The switch of `apc_realpool_create`. -/
def PoolType.dsize : PoolType → Nat
  | .small => 512
  | .medium => 4096
  | .large => 8192

/-- `apc_realpool_create`, for which the allocator has memory. -/
def realpoolCreate (type : PoolType) (redzones sizeinfo : Bool) : RealPool where
  redzones := redzones
  sizeinfo := sizeinfo
  size := poolHeader + alignWord type.dsize
  used := 0
  dsize := type.dsize
  count := 0
  blocks := [⟨0, poolHeader + alignWord type.dsize, poolHeader, type.dsize, type.dsize, poolHeader⟩]

def RealPool.realsize (pool : RealPool) (size : Nat) : Nat :=
  let padded := if pool.redzones then word (size + redzoneSize size) else alignWord size
  if pool.sizeinfo then word (padded + alignWord 8) else padded

def PoolBlock.carve (block : PoolBlock) (realsize : Nat) : PoolBlock :=
  { block with avail := sub block.avail realsize, mark := block.mark + realsize }

/-- The look-back over `n` blocks: the block that serves the request, and the blocks behind it. -/
def lookBack (realsize : Nat) : Nat → List PoolBlock → Option (PoolBlock × List PoolBlock)
  | 0, _ => none
  | _, [] => none
  | n + 1, entry :: rest =>
    if realsize ≤ entry.avail then some (entry, entry.carve realsize :: rest)
    else (lookBack realsize n rest).map fun (found, blocks) => (found, entry :: blocks)

def RealPool.upgraded (pool : RealPool) : Nat :=
  if 4 < pool.count ∧ pool.dsize < 4096 then 4096
  else if 8 < pool.count ∧ pool.dsize < 8192 then 8192
  else pool.dsize

def RealPool.memory (pool : RealPool) : Nat := (pool.blocks.map PoolBlock.bytes).sum

def RealPool.obtains (pool : RealPool) (granted : Bool) (bytes : Nat) : Bool :=
  granted && decide (pool.memory + bytes < 2 ^ 64)

def createPoolBlock (pool : RealPool) (size : Nat) (granted : Bool) : Option RealPool :=
  let realsize := word (blockHeader + alignWord size)
  if pool.obtains granted realsize then
    some { pool with
      size := word (pool.size + realsize), count := pool.count + 1
      blocks := ⟨pool.blocks.length, realsize, blockHeader, size, size, blockHeader⟩ :: pool.blocks }
  else none

/-- A result of a pool: `size` bytes from an offset in a memory block. -/
structure Chunk where
  memory : Nat
  offset : Nat
  size : Nat
  deriving DecidableEq

def RealPool.chunk (pool : RealPool) (entry : PoolBlock) (size : Nat) : Chunk :=
  ⟨entry.memory, if pool.sizeinfo then entry.mark + alignWord 8 else entry.mark, size⟩

/-- `apc_realpool_alloc`; `granted` says whether the allocator gives a block if it is asked for one. -/
def realpoolAlloc (pool : RealPool) (size : Nat) (granted : Bool) : Option Chunk × RealPool :=
  let realsize := pool.realsize size
  match lookBack realsize 8 pool.blocks with
  | some (entry, blocks) =>
    (some (pool.chunk entry size),
      { pool with used := word (pool.used + realsize), blocks := blocks })
  | none =>
    let pool := { pool with dsize := pool.upgraded }
    match createPoolBlock pool (alignSize realsize pool.dsize) granted with
    | none => (none, pool)
    | some pool =>
      match pool.blocks with
      | [] => (none, pool)
      | entry :: rest =>
        (some (pool.chunk entry size),
          { pool with
            used := word (pool.used + realsize), blocks := entry.carve realsize :: rest })

/-- The loop of `apc_realpool_cleanup`: what is deallocated. -/
def cleanupLoop : List PoolBlock → List Nat
  | [] => []
  | [_] => []
  | entry :: rest => entry.memory :: cleanupLoop rest

/-- `apc_pool_destroy`: the blocks, and the memory of the pool itself. -/
def poolDestroy (pool : RealPool) : List Nat := cleanupLoop pool.blocks ++ [0]

structure Run where
  pool : RealPool
  results : List Chunk

def Run.alloc (run : Run) (request : Nat × Bool) : Run :=
  let (result, pool) := realpoolAlloc run.pool request.1 request.2
  ⟨pool, run.results ++ result.toList⟩

/-- A pool and requests for sizes, with what the allocator below answers. -/
def requests (type : PoolType) (redzones sizeinfo : Bool) (sizes : List (Nat × Bool)) : Run :=
  sizes.foldl Run.alloc ⟨realpoolCreate type redzones sizeinfo, []⟩

def Chunk.Disjoint (chunk other : Chunk) : Prop :=
  chunk.memory ≠ other.memory ∨ chunk.offset + chunk.size ≤ other.offset ∨
    other.offset + other.size ≤ chunk.offset

structure Sound (run : Run) : Prop where
  inside : ∀ chunk ∈ run.results, ∃ block ∈ run.pool.blocks, chunk.memory = block.memory ∧
    block.start ≤ chunk.offset ∧ chunk.offset + chunk.size ≤ block.start + block.capacity ∧
    block.start + block.capacity ≤ block.bytes
  aligned : ∀ chunk ∈ run.results, chunk.offset % 8 = 0
  disjoint : run.results.Pairwise Chunk.Disjoint
  bump : ∀ block ∈ run.pool.blocks, block.avail ≤ block.capacity ∧ block.start ≤ block.mark ∧
    block.mark - block.start = block.capacity - block.avail
  total : run.pool.size = run.pool.memory
  returned : (poolDestroy run.pool).Perm (run.pool.blocks.map PoolBlock.memory) ∧
    (poolDestroy run.pool).Nodup

def roundUp (n size : Nat) : Nat := (n + size - 1) / size * size

def RealPool.needed (pool : RealPool) (size : Nat) : Nat :=
  roundUp size 8 + (if pool.redzones ∧ roundUp size 8 ≤ size + 4 then 8 else 0) +
    (if pool.sizeinfo then 8 else 0)

/-- What a request needs is a `size_t`, and so is the size of the new block if there has to be one. -/
def Roomy (pool : RealPool) (size : Nat) : Prop :=
  pool.needed size < 2 ^ 64 ∧
    ((∃ block ∈ pool.blocks.take 8, pool.needed size ≤ block.avail) ∨
      roundUp (pool.needed size) pool.upgraded < 2 ^ 64)

instance (pool : RealPool) (size : Nat) : Decidable (Roomy pool size) :=
  inferInstanceAs (Decidable (_ ∧ (_ ∨ _)))

def AllRoomy (type : PoolType) (redzones sizeinfo : Bool) (sizes : List (Nat × Bool)) : Prop :=
  ∀ before request after, sizes = before ++ request :: after →
    Roomy (requests type redzones sizeinfo before).pool request.1

section

variable {x size n : Nat}

theorem word_eq (small : n < 2 ^ 64) : word n = n := Nat.mod_eq_of_lt small

theorem le_roundUp (pos : 0 < size) : x ≤ roundUp x size := by
  have := Nat.div_add_mod (x + size - 1) size
  have := Nat.mod_lt (x + size - 1) pos
  rw [roundUp, Nat.mul_comm]
  omega

theorem roundUp_mod : roundUp x size % size = 0 := Nat.mul_mod_left _ _

theorem alignSize_eq (pos : 0 < size) (divides : size ∣ 2 ^ 64) (small : roundUp x size < 2 ^ 64) :
    alignSize x size = roundUp x size := by
  have le := le_roundUp (x := x) pos
  rcases Nat.eq_zero_or_pos x with rfl | positive
  · -- `0 - 1` is the greatest number, and the product wraps to zero.
    obtain ⟨k, pow⟩ := divides
    have kpos : 0 < k := Nat.pos_of_ne_zero fun zero => by
      rw [zero] at pow
      omega
    have quotient : (2 ^ 64 - 1) / size = k - 1 := by
      rw [pow]
      have : size * k - 1 = size - 1 + size * (k - 1) := by
        obtain ⟨j, rfl⟩ : ∃ j, k = j + 1 := ⟨k - 1, by omega⟩
        rw [Nat.add_sub_cancel, Nat.mul_succ]
        omega
      rw [this, Nat.add_mul_div_left _ _ pos, Nat.div_eq_of_lt (by omega), Nat.zero_add]
    have zero : roundUp 0 size = 0 := by
      rw [roundUp, Nat.zero_add, Nat.div_eq_of_lt (by omega), Nat.zero_mul]
    have kle : k ≤ 2 ^ 64 := by
      rw [pow]
      exact Nat.le_mul_of_pos_left k pos
    rw [zero, alignSize, sub, Nat.zero_add, word_eq (n := 2 ^ 64 - 1) (by omega), quotient,
      Nat.add_sub_cancel' kpos, word, word]
    rcases Nat.lt_or_eq_of_le kle with less | all
    · rw [Nat.mod_eq_of_lt less, ← pow, Nat.mod_self]
    · rw [all, Nat.mod_self, Nat.mul_zero, Nat.zero_mod]
  · have less : x < 2 ^ 64 := Nat.lt_of_le_of_lt le small
    have predecessor : sub x 1 = x - 1 := by
      rw [sub, word]
      omega
    have quotient : 1 + (x - 1) / size = (x + size - 1) / size := by
      rw [show x + size - 1 = x - 1 + size by omega, Nat.add_div_right _ pos, Nat.add_comm]
    have factor : (x + size - 1) / size ≤ roundUp x size := Nat.le_mul_of_pos_right _ pos
    rw [alignSize, predecessor, quotient, word_eq (Nat.lt_of_le_of_lt factor small), Nat.mul_comm]
    exact word_eq small

end

/-! ## What a request needs -/

section

variable {pool : RealPool} {size : Nat}

theorem alignWord_eq (small : roundUp size 8 < 2 ^ 64) : alignWord size = roundUp size 8 :=
  alignSize_eq (by decide) (by decide) small

theorem alignWord_of_eight (n : Nat) (multiple : n % 8 = 0) (small : n < 2 ^ 64) : alignWord n = n := by
  have rounded : roundUp n 8 = n := by
    rw [roundUp]
    omega
  rw [alignWord_eq (by rwa [rounded]), rounded]

theorem size_add_redzoneSize
    (small : roundUp size 8 + (if roundUp size 8 ≤ size + 4 then 8 else 0) < 2 ^ 64) :
    word (size + redzoneSize size) =
      roundUp size 8 + (if roundUp size 8 ≤ size + 4 then 8 else 0) := by
  have one : alignWord 1 = 8 := by decide
  have rounded : alignWord size = roundUp size 8 :=
    alignWord_eq (Nat.lt_of_le_of_lt (Nat.le_add_right _ _) small)
  have le : size ≤ roundUp size 8 := le_roundUp (by decide)
  have difference : sub (roundUp size 8) size = roundUp size 8 - size := by
    rw [sub, word]
    omega
  rw [redzoneSize, rounded, one, difference]
  generalize roundUp size 8 = r at *
  by_cases fits : r ≤ size + 4
  · rw [if_pos fits] at small ⊢
    rw [word_eq (n := size + 4) (by omega), if_neg (by omega), word_eq (n := r - size + 8)
      (by omega), word_eq (by omega)]
    omega
  · rw [if_neg fits] at small ⊢
    rw [word_eq (n := size + 4) (by omega), if_pos (by omega), word_eq (by omega)]
    omega

theorem realsize_eq (small : pool.needed size < 2 ^ 64) :
    pool.realsize size = pool.needed size := by
  have eight : alignWord 8 = 8 := by decide
  rw [RealPool.needed] at small ⊢
  rw [RealPool.realsize, eight]
  have padded : (if pool.redzones then word (size + redzoneSize size) else alignWord size) =
      roundUp size 8 + (if pool.redzones ∧ roundUp size 8 ≤ size + 4 then 8 else 0) := by
    cases zones : pool.redzones with
    | true =>
      simp only [zones, true_and, if_true] at small ⊢
      exact size_add_redzoneSize (Nat.lt_of_le_of_lt (Nat.le_add_right _ _) small)
    | false =>
      simp only [zones, Bool.false_eq_true, false_and, if_false] at small ⊢
      exact alignWord_eq (Nat.lt_of_le_of_lt (Nat.le_add_right _ _) small)
  simp only [padded]
  cases info : pool.sizeinfo with
  | true =>
    simp only [info, if_true] at small ⊢
    exact word_eq small
  | false => simp only [Bool.false_eq_true, if_false, Nat.add_zero]

theorem needed_mod : pool.needed size % 8 = 0 := by
  have multiple : roundUp size 8 % 8 = 0 := roundUp_mod
  rw [RealPool.needed]
  split <;> split <;> omega

theorem le_needed : (if pool.sizeinfo then 8 else 0) + size ≤ pool.needed size := by
  have le : size ≤ roundUp size 8 := le_roundUp (by decide)
  rw [RealPool.needed]
  omega

end

structure PoolBlock.Ok (block : PoolBlock) : Prop where
  left : block.avail ≤ block.capacity
  marked : block.mark = block.start + (block.capacity - block.avail)
  aligned : block.mark % 8 = 0
  holds : block.start + block.capacity ≤ block.bytes
  range : block.capacity < 2 ^ 64

structure RealPool.Ok (pool : RealPool) : Prop where
  nonempty : pool.blocks ≠ []
  blocks : ∀ block ∈ pool.blocks, block.Ok
  numbers : pool.blocks.map PoolBlock.memory = (List.range pool.blocks.length).reverse
  total : pool.size = pool.memory
  bounded : pool.memory < 2 ^ 64
  dsize : pool.dsize ∈ [512, 4096, 8192]

structure Served (pool : RealPool) (results : List Chunk) : Prop where
  placed : ∀ chunk ∈ results, ∃ block ∈ pool.blocks, chunk.memory = block.memory ∧
    block.start ≤ chunk.offset ∧ chunk.offset + chunk.size ≤ block.mark
  aligned : ∀ chunk ∈ results, chunk.offset % 8 = 0
  disjoint : results.Pairwise Chunk.Disjoint

section

variable {pool : RealPool} {results : List Chunk} {size : Nat}

theorem ok_create (type : PoolType) (redzones sizeinfo : Bool) :
    (realpoolCreate type redzones sizeinfo).Ok := by
  cases type with
  | small | medium | large =>
    refine ⟨by rintro ⟨⟩, ?_, rfl, rfl, ?_, ?_⟩
    · intro block mem
      rw [List.mem_singleton.mp mem]
      exact ⟨by decide, by decide, by decide, by decide, by decide⟩
    · rw [RealPool.memory, realpoolCreate, List.map_singleton, List.sum_singleton]
      decide
    · rw [realpoolCreate]
      dsimp only
      decide

theorem RealPool.Ok.same_block (ok : pool.Ok) {block other : PoolBlock} (mem : block ∈ pool.blocks)
    (mem' : other ∈ pool.blocks) (same : block.memory = other.memory) : block = other := by
  have nodup : (pool.blocks.map PoolBlock.memory).Nodup := by
    rw [ok.numbers, List.nodup_reverse]
    exact List.nodup_range
  exact List.inj_on_of_nodup_map nodup mem mem' same

theorem sub_eq {m n : Nat} (le : n ≤ m) (small : m < 2 ^ 64) : sub m n = m - n := by
  rw [sub, word]
  omega

section

variable {block : PoolBlock} {realsize : Nat}

/-! Only the mark and what is left change. -/

theorem carve_memory : (block.carve realsize).memory = block.memory := by rw [PoolBlock.carve]

theorem carve_bytes : (block.carve realsize).bytes = block.bytes := by rw [PoolBlock.carve]

theorem carve_start : (block.carve realsize).start = block.start := by rw [PoolBlock.carve]

theorem carve_mark : (block.carve realsize).mark = block.mark + realsize := by
  rw [PoolBlock.carve]

end

theorem carve_eq {block : PoolBlock} (ok : block.Ok) {realsize : Nat}
    (fits : realsize ≤ block.avail) : block.carve realsize =
      { block with avail := block.avail - realsize, mark := block.mark + realsize } := by
  rw [PoolBlock.carve, sub_eq fits (Nat.lt_of_le_of_lt ok.left ok.range)]

theorem carve_ok {block : PoolBlock} (ok : block.Ok) {realsize : Nat} (fits : realsize ≤ block.avail)
    (multiple : realsize % 8 = 0) : (block.carve realsize).Ok := by
  rw [carve_eq ok fits]
  obtain ⟨left, marked, aligned, holds, range⟩ := ok
  refine ⟨?_, ?_, ?_, holds, range⟩
  · exact Nat.le_trans (Nat.sub_le _ _) left
  · dsimp only
    omega
  · dsimp only
    omega

theorem memory_carve {front back : List PoolBlock} {entry : PoolBlock} {realsize used : Nat}
    (shape : pool.blocks = front ++ entry :: back) :
    ({ pool with used := used, blocks := front ++ entry.carve realsize :: back }
      : RealPool).memory = pool.memory := by
  rw [RealPool.memory, RealPool.memory, shape, List.map_append, List.map_append, List.map_cons,
    List.map_cons, carve_bytes]

/-- **A block that has enough left serves a request.** -/
theorem serve_ok (ok : pool.Ok) (served : Served pool results) {front back : List PoolBlock}
    {entry : PoolBlock} (shape : pool.blocks = front ++ entry :: back)
    (fits : pool.needed size ≤ entry.avail) (used : Nat) :
    let next := { pool with
      used := used, blocks := front ++ entry.carve (pool.needed size) :: back }
    next.Ok ∧ Served next (results ++ [pool.chunk entry size]) := by
  have mem : entry ∈ pool.blocks := by
    rw [shape]
    exact List.mem_append_right _ (.head _)
  have good := ok.blocks entry mem
  have eight : alignWord 8 = 8 := by decide
  have offset : (pool.chunk entry size).offset = entry.mark + if pool.sizeinfo then 8 else 0 := by
    rw [RealPool.chunk, eight]
    split <;> rfl
  have room := @le_needed pool size
  intro next
  have others : ∀ block, block ∈ pool.blocks → block = entry ∨ block ∈ next.blocks := by
    intro block there
    rw [shape] at there
    rcases List.mem_append.mp there with here | here
    · exact .inr (List.mem_append_left _ here)
    · rcases List.mem_cons.mp here with rfl | here
      · exact .inl rfl
      · exact .inr (List.mem_append_right _ (.tail _ here))
  have memory : next.memory = pool.memory := memory_carve shape
  have carved : entry.carve (pool.needed size) ∈ next.blocks :=
    List.mem_append_right _ (.head _)
  constructor
  · refine ⟨?_, ?_, ?_, ?_, ?_, ok.dsize⟩
    · intro nothing
      rw [nothing] at carved
      cases carved
    · intro block there
      rcases List.mem_append.mp there with here | here
      · exact ok.blocks block (by rw [shape]; exact List.mem_append_left _ here)
      · rcases List.mem_cons.mp here with rfl | here
        · exact carve_ok good fits needed_mod
        · apply ok.blocks
          rw [shape]
          exact List.mem_append_right _ (.tail _ here)
    · have numbers := ok.numbers
      rw [shape] at numbers
      change (front ++ _ :: back).map _ = (List.range (front ++ _ :: back).length).reverse
      rw [List.length_append, List.length_cons, List.map_append, List.map_cons] at numbers ⊢
      rw [carve_memory]
      exact numbers
    · rw [memory]
      exact ok.total
    · rw [memory]
      exact ok.bounded
  · refine ⟨?_, ?_, ?_⟩
    · intro chunk there
      rcases List.mem_append.mp there with old | new
      · obtain ⟨block, mem', same, after, before⟩ := served.placed chunk old
        rcases others block mem' with rfl | stays
        · refine ⟨_, carved, ?_, ?_, ?_⟩
          · rw [carve_memory, same]
          · rw [carve_start]
            exact after
          · rw [carve_mark]
            exact Nat.le_trans before (Nat.le_add_right _ _)
        · exact ⟨block, stays, same, after, before⟩
      · rw [List.mem_singleton.mp new]
        refine ⟨_, carved, ?_, ?_, ?_⟩
        · rw [carve_memory]
          rfl
        · rw [carve_start, offset]
          have := good.marked
          omega
        · rw [carve_mark, offset]
          change _ + size ≤ _
          omega
    · intro chunk there
      rcases List.mem_append.mp there with old | new
      · exact served.aligned chunk old
      · rw [List.mem_singleton.mp new, offset]
        have := good.aligned
        split <;> omega
    · rw [List.pairwise_append]
      refine ⟨served.disjoint, List.pairwise_singleton _ _, ?_⟩
      intro chunk old other new
      rw [List.mem_singleton.mp new]
      obtain ⟨block, mem', same, after, before⟩ := served.placed chunk old
      by_cases apart : chunk.memory = entry.memory
      · have here : block = entry := ok.same_block mem' mem (same ▸ apart)
        rw [here] at before
        right
        left
        rw [offset]
        omega
      · exact .inl apart

theorem lookBack_some {realsize n : Nat} {blocks blocks' : List PoolBlock} {entry : PoolBlock}
    (found : lookBack realsize n blocks = some (entry, blocks')) :
    realsize ≤ entry.avail ∧ ∃ front back, blocks = front ++ entry :: back ∧
      blocks' = front ++ entry.carve realsize :: back := by
  induction n generalizing blocks blocks' with
  | zero =>
    rw [lookBack] at found
    cases found
  | succ n ih =>
    cases blocks with
    | nil => cases found
    | cons first rest =>
      rw [lookBack] at found
      by_cases fits : realsize ≤ first.avail
      · rw [if_pos fits] at found
        cases found
        exact ⟨fits, [], rest, rfl, rfl⟩
      · rw [if_neg fits] at found
        obtain ⟨⟨later, others⟩, found', same⟩ := Option.map_eq_some_iff.mp found
        cases same
        obtain ⟨fits', front, back, rfl, rfl⟩ := ih found'
        exact ⟨fits', first :: front, back, rfl, rfl⟩

theorem lookBack_none {realsize n : Nat} {blocks : List PoolBlock}
    (missing : lookBack realsize n blocks = none) :
    ∀ block ∈ blocks.take n, ¬realsize ≤ block.avail := by
  induction n generalizing blocks with
  | zero =>
    intro block mem
    cases mem
  | succ n ih =>
    cases blocks with
    | nil =>
      intro block mem
      cases mem
    | cons first rest =>
      rw [lookBack] at missing
      by_cases fits : realsize ≤ first.avail
      · rw [if_pos fits] at missing
        cases missing
      · rw [if_neg fits] at missing
        exact List.forall_mem_cons.mpr ⟨fits, ih (Option.map_eq_none_iff.mp missing)⟩

theorem upgraded_ok (ok : pool.Ok) : { pool with dsize := pool.upgraded }.Ok := by
  refine ⟨ok.nonempty, ok.blocks, ok.numbers, ok.total, ok.bounded, ?_⟩
  change pool.upgraded ∈ _
  rw [RealPool.upgraded]
  split
  · decide
  · split
    · decide
    · exact ok.dsize

/-- **A new block is empty, and has enough left for a request that is at most its size.** -/
theorem create_ok (ok : pool.Ok) (served : Served pool results) {granted : Bool} {next : RealPool}
    (small : size ≤ 2 ^ 64 - 512) (multiple : size % 8 = 0)
    (made : createPoolBlock pool size granted = some next) :
    next.Ok ∧ Served next results ∧ next.redzones = pool.redzones ∧ next.sizeinfo = pool.sizeinfo ∧
      ∃ entry rest, next.blocks = entry :: rest ∧ entry.avail = size := by
  have realsize : word (blockHeader + alignWord size) = 32 + size := by
    rw [alignWord_of_eight size multiple (by omega), blockHeader, word_eq (by omega)]
  rw [createPoolBlock, realsize] at made
  by_cases obtained : pool.obtains granted (32 + size)
  · rw [if_pos obtained] at made
    cases made
    have bounded : pool.memory + (32 + size) < 2 ^ 64 := by
      rw [RealPool.obtains, Bool.and_eq_true, decide_eq_true_eq] at obtained
      exact obtained.2
    refine ⟨⟨by rintro ⟨⟩, ?_, ?_, ?_, ?_, ok.dsize⟩, ⟨?_, served.aligned, served.disjoint⟩, rfl, rfl,
      _, _, rfl, rfl⟩
    · intro block mem
      rcases List.mem_cons.mp mem with rfl | mem
      · refine ⟨Nat.le_refl _, ?_, ?_, Nat.le_refl _, Nat.lt_of_le_of_lt small (by decide)⟩
        · dsimp only
          omega
        · change blockHeader % 8 = 0
          decide
      · exact ok.blocks block mem
    · change pool.blocks.length :: pool.blocks.map _ = (List.range (pool.blocks.length + 1)).reverse
      rw [List.range_succ, List.reverse_append, ok.numbers]
      rfl
    · change word (pool.size + (32 + size)) = (32 + size) + pool.memory
      rw [ok.total, word_eq bounded, Nat.add_comm]
    · change (32 + size) + pool.memory < 2 ^ 64
      omega
    · intro chunk mem
      obtain ⟨block, there, rest⟩ := served.placed chunk mem
      exact ⟨block, .tail _ there, rest⟩
  · rw [if_neg obtained] at made
    cases made

theorem divides_of_dsize {dsize : Nat} (isSize : dsize ∈ [512, 4096, 8192]) :
    0 < dsize ∧ dsize ∣ 2 ^ 64 ∧ 512 ∣ dsize := by
  simp only [List.mem_cons, List.not_mem_nil, or_false] at isSize
  rcases isSize with rfl | rfl | rfl <;> decide

/-- **A roomy request keeps the pool in order, whether it gets memory or not.** -/
theorem alloc_ok (ok : pool.Ok) (served : Served pool results) {granted : Bool}
    (roomy : Roomy pool size) :
    (realpoolAlloc pool size granted).2.Ok ∧ Served (realpoolAlloc pool size granted).2
      (results ++ (realpoolAlloc pool size granted).1.toList) := by
  obtain ⟨small, there⟩ := roomy
  rw [realpoolAlloc, realsize_eq small]
  cases found : lookBack (pool.needed size) 8 pool.blocks with
  | some pair =>
    obtain ⟨entry, blocks⟩ := pair
    obtain ⟨fits, front, back, shape, rfl⟩ := lookBack_some found
    exact serve_ok ok served shape fits _
  | none =>
    have rounded : roundUp (pool.needed size) pool.upgraded < 2 ^ 64 := by
      rcases there with ⟨block, mem, fits⟩ | rounded
      · exact absurd fits (lookBack_none found block mem)
      · exact rounded
    have ok' := upgraded_ok ok
    have served' : Served { pool with dsize := pool.upgraded } results :=
      ⟨served.placed, served.aligned, served.disjoint⟩
    obtain ⟨pos, divides, multiple⟩ := divides_of_dsize ok'.dsize
    have enough : pool.needed size ≤ roundUp (pool.needed size) pool.upgraded := le_roundUp pos
    have blocks : 512 ∣ roundUp (pool.needed size) pool.upgraded :=
      Nat.dvd_trans multiple (Nat.dvd_of_mod_eq_zero roundUp_mod)
    dsimp only
    rw [alignSize_eq pos divides rounded]
    cases made : createPoolBlock { pool with dsize := pool.upgraded }
        (roundUp (pool.needed size) pool.upgraded) granted with
    | none =>
      rw [Option.toList_none, List.append_nil]
      exact ⟨ok', served'⟩
    | some next =>
      obtain ⟨nextOk, nextServed, zones, info, entry, rest, shape, left⟩ :=
        create_ok ok' served' (by omega) (by omega) made
      have same : next.needed size = pool.needed size := by
        rw [RealPool.needed, RealPool.needed, zones, info]
      have fits : next.needed size ≤ entry.avail := by
        rw [same, left]
        exact enough
      have done := @serve_ok next results size nextOk nextServed [] rest entry shape fits
        (word (next.used + pool.needed size))
      rw [same] at done
      dsimp only
      rw [shape]
      exact done

end

theorem cleanupLoop_eq (blocks : List PoolBlock) :
    cleanupLoop blocks = (blocks.map PoolBlock.memory).dropLast := by
  induction blocks with
  | nil => rfl
  | cons first rest ih =>
    cases rest with
    | nil => rfl
    | cons second rest =>
      rw [cleanupLoop, ih]
      rfl
      exact nofun

theorem poolDestroy_eq {pool : RealPool} (ok : pool.Ok) :
    poolDestroy pool = pool.blocks.map PoolBlock.memory := by
  have pos : 0 < pool.blocks.length := List.length_pos_iff.mpr ok.nonempty
  obtain ⟨n, length⟩ : ∃ n, pool.blocks.length = n + 1 := ⟨pool.blocks.length - 1, by omega⟩
  rw [poolDestroy, cleanupLoop_eq, ok.numbers, length, List.range_succ_eq_map, List.reverse_cons,
    List.dropLast_concat]

theorem Served.sound {run : Run} (ok : run.pool.Ok) (served : Served run.pool run.results) :
    Sound run where
  inside chunk mem := by
    obtain ⟨block, there, same, after, before⟩ := served.placed chunk mem
    have good := ok.blocks block there
    have := good.marked
    exact ⟨block, there, same, after, by omega, good.holds⟩
  aligned := served.aligned
  disjoint := served.disjoint
  bump block mem := by
    have good := ok.blocks block mem
    have := good.marked
    exact ⟨good.left, by omega, by omega⟩
  total := ok.total
  returned := by
    rw [poolDestroy_eq ok]
    refine ⟨.refl _, ?_⟩
    rw [ok.numbers, List.nodup_reverse]
    exact List.nodup_range

theorem requests_ok {type : PoolType} {redzones sizeinfo : Bool} {sizes : List (Nat × Bool)}
    (roomy : AllRoomy type redzones sizeinfo sizes) :
    (requests type redzones sizeinfo sizes).pool.Ok ∧
      Served (requests type redzones sizeinfo sizes).pool
        (requests type redzones sizeinfo sizes).results := by
  induction sizes using List.reverseRecOn with
  | nil =>
    refine ⟨ok_create type redzones sizeinfo, ?_, ?_, .nil⟩
    · intro chunk mem
      cases mem
    · intro chunk mem
      cases mem
  | append_singleton before request ih =>
    have earlier : AllRoomy type redzones sizeinfo before := by
      intro before' request' after shape
      apply roomy before' request' (after ++ [request])
      rw [shape, List.append_assoc, List.cons_append]
    obtain ⟨ok, served⟩ := ih earlier
    rw [requests, List.foldl_append]
    exact alloc_ok ok served (roomy before request [] rfl)

/-- A pool whose requests are all roomy is sound, whatever the allocator below gives. -/
theorem sound_of_roomy (type : PoolType) (redzones sizeinfo : Bool) (sizes : List (Nat × Bool))
    (roomy : AllRoomy type redzones sizeinfo sizes) :
    Sound (requests type redzones sizeinfo sizes) := by
  obtain ⟨ok, served⟩ := requests_ok roomy
  exact served.sound ok

theorem sound_two : Sound (requests .small false false [(600, false), (5, true)]) := by
  apply sound_of_roomy
  intro before request after shape
  rcases before with _ | ⟨first, before⟩
  · cases shape
    decide
  · rcases before with _ | ⟨second, before⟩
    · cases shape
      decide
    · cases before <;> cases shape

/-- Eight bytes less than the address space are rounded up to a block of none. -/
theorem not_sound : ¬∀ type redzones sizeinfo sizes, Sound (requests type redzones sizeinfo sizes) := by
  intro sound
  obtain ⟨block, mem, same, -, fits, -⟩ :=
    (sound .small false false [(2 ^ 64 - 8, true)]).inside ⟨1, 32, 2 ^ 64 - 8⟩ (by decide +kernel)
  have blocks : ∀ block ∈ (requests .small false false [(2 ^ 64 - 8, true)]).pool.blocks,
      block.memory = 1 → block.start + block.capacity = 32 := by decide +kernel
  rw [blocks block mem same.symm] at fits
  revert fits
  decide

end PhpExts.Apcu.PoolAllocator
