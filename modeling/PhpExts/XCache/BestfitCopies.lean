import PhpExts.XCache.BestfitRuns
import Mathlib

/-!
# Blocks that are cleared and moved

`calloc` and `realloc` are written over `malloc`. Its sizes wrap around near `2 ^ 64`, and so does the
product of `calloc`; and `realloc` copies as many bytes as are asked for, from a block that may be
shorter (`requests_iff`).
-/

namespace PhpExts.XCache.Bestfit

open Function (update_of_ne)

/-- The words from `p` on that lie among `n` bytes are given new contents, the last of them as far
as these bytes go. -/
def fill (memory : Nat → Nat) (p n : Nat) (source : Nat → Nat) (address : Nat) : Nat :=
  if p ≤ address ∧ address < p + n ∧ (address - p) % 8 = 0 then
    let count := min 8 (p + n - address)
    source (address - p) % 256 ^ count + memory address / 256 ^ count * 256 ^ count
  else memory address

/-- `memset(p, 0, n)`. -/
def memsetZero (memory : Nat → Nat) (p n : Nat) : Nat → Nat :=
  fill memory p n fun _ => 0

/-- `memcpy(newp, p, n)`. -/
def memcpy (memory : Nat → Nat) (newp p n : Nat) : Nat → Nat :=
  fill memory newp n fun offset => memory (p + offset)

def calloc (allocator : Allocator) (memb size : Nat) : Option (Option Nat × Allocator) := do
  let realsize := word (memb * size)
  match ← malloc allocator realsize with
  | (none, allocator) => some (none, allocator)
  | (some p, allocator) =>
    some (some p, { allocator with memory := memsetZero allocator.memory p realsize })

/-- What `xc_allocator_bestfit_realloc` returns, the bytes that it reads for that, and the allocator
after it. -/
structure Moved where
  newp : Option Nat
  reads : List (Nat × Nat)
  allocator : Allocator

def realloc (allocator : Allocator) (p size : Nat) : Option Moved := do
  match ← malloc allocator size with
  | (none, allocator) => some ⟨none, [], allocator⟩
  | (some newp, allocator) =>
    if p = 0 then some ⟨some newp, [], allocator⟩
    else do
      let (_, allocator) ←
        free { allocator with memory := memcpy allocator.memory newp p size } p
      some ⟨some newp, [(p, size)], allocator⟩

/-! ## The properties -/

/-- A byte of the memory from `p` on. -/
def byte (memory : Nat → Nat) (p i : Nat) : Nat :=
  memory (p + 8 * (i / 8)) / 256 ^ (i % 8) % 256

/-- The bytes of a block that its owner may use. -/
def room (allocator : Allocator) (p : Nat) : Nat :=
  allocator.memory (p - headerSize) - headerSize

structure Given (system : System) (p size : Nat) : Prop where
  low : system.allocator.start + headerSize ≤ p
  high : p + size ≤ system.allocator.stop
  apart : ∀ block ∈ system.live, p + size ≤ block.1 ∨ block.1 + block.2 ≤ p

/-- `malloc` returns `NULL` or a block of the size. -/
def MallocGives (system : System) (size : Nat) : Prop :=
  ∃ p allocator', malloc system.allocator size = some (p, allocator') ∧
    ∀ q ∈ p, Given system q size

/-- `calloc` returns `NULL` or a cleared block of the product. -/
def CallocGives (system : System) (memb size : Nat) : Prop :=
  ∃ p allocator', calloc system.allocator memb size = some (p, allocator') ∧
    ∀ q ∈ p, Given system q (memb * size) ∧ ∀ i < memb * size, byte allocator'.memory q i = 0

/-- `realloc` reads the old block only, and returns a block with the old bytes, or `NULL` and leaves
all as it is. -/
def ReallocKeeps (system : System) (p old size : Nat) : Prop :=
  ∃ moved, realloc system.allocator p size = some moved ∧
    (∀ read ∈ moved.reads, p ≤ read.1 ∧ read.1 + read.2 ≤ p + room system.allocator p) ∧
    match moved.newp with
    | none => moved.allocator = system.allocator
    | some newp => Given system newp size ∧ ∀ i < min old size,
        byte moved.allocator.memory newp i = byte system.allocator.memory p i

def Unserved (tiles : List Tile) (size : Nat) : Prop :=
  ∀ other, .free other ∈ tiles → ¬ Suits (realSize size) other

section

variable {memory source : Nat → Nat} {p n i address : Nat}

theorem fill_of_lt (low : address < p) : fill memory p n source address = memory address :=
  if_neg fun inside => absurd inside.1 (Nat.not_le.mpr low)

theorem fill_of_le (high : p + n ≤ address) : fill memory p n source address = memory address :=
  if_neg fun inside => absurd inside.2.1 (Nat.not_lt.mpr high)

theorem byte_of_word {x y count m : Nat} (less : m < count) :
    (x % 256 ^ count + y * 256 ^ count) / 256 ^ m % 256 = x / 256 ^ m % 256 := by
  have split : 256 ^ count = 256 ^ m * 256 * 256 ^ (count - m - 1) := by
    rw [← Nat.pow_succ, ← Nat.pow_add]
    congr 1
    omega
  have divides : 256 ^ m * 256 ∣ 256 ^ count := ⟨_, split⟩
  have upper : y * 256 ^ count % (256 ^ m * 256) = 0 :=
    Nat.mod_eq_zero_of_dvd (Nat.dvd_trans divides (Nat.dvd_mul_left _ _))
  rw [← Nat.mod_mul_right_div_self, ← Nat.mod_mul_right_div_self, Nat.add_mod,
    Nat.mod_mod_of_dvd _ divides, upper, Nat.add_zero, Nat.mod_mod]

theorem byte_fill (less : i < n) :
    byte (fill memory p n source) p i = source (8 * (i / 8)) / 256 ^ (i % 8) % 256 := by
  have inside : p ≤ p + 8 * (i / 8) ∧ p + 8 * (i / 8) < p + n ∧
      (p + 8 * (i / 8) - p) % 8 = 0 := by omega
  rw [byte, fill, if_pos inside, Nat.add_sub_cancel_left]
  apply byte_of_word
  omega

end

/-! ## What calls leave alone -/

section

variable {memory : Nat → Nat} {residue prev start stop : Nat} {front back tiles : List Tile}
  {block : Nat × Nat} {allocator allocator' : Allocator} {p size n address : Nat}

theorem Tiled.apart_lastFree (tiled : Tiled memory residue prev start (front ++ back) stop)
    (isUsed : block ∈ usedBlocks start (front ++ back)) :
    block.1 + headerSize + block.2 ≤ lastFree prev start front ∨
      lastFree prev start front + blockStruct ≤ block.1 := by
  induction front generalizing prev start with
  | nil =>
    have low := (tiled.usedBlocks_spec.2 block isUsed).1
    right
    refine Nat.le_trans (tiled.clear ?_) low
    rintro rfl
    cases isUsed
  | cons tile front ih =>
    cases tile with
    | free size => exact ih tiled.2.2 isUsed
    | used size requested =>
      obtain ⟨⟨-, -, clear, -⟩, fits, rest⟩ := tiled
      rcases List.mem_cons.mp isUsed with rfl | later
      · rcases @lastFree_eq_or prev (start + size) front with same | behind
        · right
          rwa [lastFree, same]
        · left
          rw [lastFree]
          simp only [headerSize] at fits ⊢
          omega
      · exact ih rest later

theorem Tiled.le_of_mem_front (tiled : Tiled memory residue prev start (front ++ back) stop)
    (isUsed : block ∈ usedBlocks start front) :
    block.1 + headerSize + block.2 ≤ start + bytes front := by
  induction front generalizing prev start with
  | nil => cases isUsed
  | cons tile front ih =>
    rw [bytes_cons, ← Nat.add_assoc]
    cases tile with
    | free size => exact ih tiled.2.2 isUsed
    | used size requested =>
      obtain ⟨-, fits, rest⟩ := tiled
      rcases List.mem_cons.mp isUsed with rfl | later
      · simp only [Tile.size, headerSize] at fits ⊢
        omega
      · exact ih rest later

theorem take_of_ne (suits : Suits p n) (isNext : next allocator.memory prev = start)
    (isSize : allocator.memory start = n) (link : address ≠ prev + 8)
    (away : address < start ∨ start + n ≤ address) :
    (take allocator p prev).2.memory address = allocator.memory address := by
  simp only [take, isNext, isSize]
  by_cases perfect : n = p
  · rw [if_pos perfect]
    exact update_of_ne link _ _
  · have split : p + blockStruct < n := suits.resolve_left perfect
    simp only [blockStruct] at split
    simp only [if_neg perfect, blockSetup, setNext, setSize]
    rw [update_of_ne link, update_of_ne (by omega),
      update_of_ne (by omega), update_of_ne (by omega)]

theorem Intact.malloc_keeps (intact : Intact allocator tiles)
    (result : Bestfit.malloc allocator size = some (some p, allocator'))
    (isUsed : block ∈ usedBlocks allocator.start tiles) (low : block.1 + headerSize ≤ address)
    (high : address < block.1 + headerSize + block.2) :
    allocator'.memory address = allocator.memory address := by
  rcases intact.serve size with ⟨unserved, -⟩ | ⟨front, n, back, rfl, best, served⟩
  · rw [unserved] at result
    cases result
  · obtain ⟨⟨isSize, -, -, -⟩, isNext, -⟩ := intact.tiled.rest
    have struct := intact.tiled.apart_lastFree isUsed
    simp only [headerSize, blockStruct] at low high struct
    rw [served] at result
    obtain ⟨-, rfl⟩ := Prod.mk.inj (Option.some_inj.mp result)
    apply take_of_ne best.1 isNext isSize (by omega)
    rw [usedBlocks_append] at isUsed
    rcases List.mem_append.mp isUsed with before | behind
    · have ends := intact.tiled.le_of_mem_front before
      simp only [headerSize] at ends
      omega
    · have starts := (intact.tiled.rest.2.2.usedBlocks_spec.2 block behind).1
      omega

theorem free_of_findBefore {b : Nat}
    (found : findBefore allocator.memory (p - headerSize) (allocator.size + 1)
      allocator.headblock = some b) :
    ∃ returned allocator', free allocator p = some (returned, allocator') ∧
      ∀ address, address ≠ b → address ≠ b + 8 → address ≠ p - headerSize →
        address ≠ p - headerSize + 8 → allocator'.memory address = allocator.memory address := by
  simp only [free, found, Option.bind_eq_bind, Option.bind_some]
  refine ⟨_, _, rfl, fun address notB notLink notCur notNext => ?_⟩
  have join : ∀ (memory : Nat → Nat) (cur other : Nat), address ≠ cur → address ≠ cur + 8 →
      takeIn memory cur other address = memory address := by
    intro memory cur other here there
    rw [takeIn, setNext, setSize, update_of_ne there, update_of_ne here]
  have joinNext : ∀ (memory : Nat → Nat) (cur : Nat), address ≠ cur → address ≠ cur + 8 →
      combineNext memory cur address = memory address := by
    intro memory cur here there
    simp only [combineNext]
    split
    · exact join _ _ _ here there
    · rfl
  have linked : setNext (setNext allocator.memory (p - headerSize) (next allocator.memory b)) b
      (p - headerSize) address = allocator.memory address := by
    rw [setNext, setNext, update_of_ne notLink, update_of_ne notNext]
  simp only [combinePrev]
  split
  · exact (joinNext _ _ notB notLink).trans ((join _ _ _ notB notLink).trans linked)
  · exact (joinNext _ _ notCur notNext).trans linked

end

namespace Kept

variable {system : System} {tiles : List Tile} {allocator' : Allocator} {p q old memb size : Nat}

theorem given (kept : Kept system tiles) (small : size + 15 < 2 ^ 64)
    (result : malloc system.allocator size = some (some q, allocator')) :
    Given system q size ∧ ∃ tiles', Kept ⟨allocator', (q, size) :: system.live⟩ tiles' := by
  have steps : system.step (.malloc size) = some ⟨allocator', (q, size) :: system.live⟩ := by
    simp only [System.step, result]
    rfl
  obtain ⟨system', tiles', next, kept'⟩ := @step _ _ kept (.malloc size) small trivial
  obtain rfl := Option.some_inj.mp (steps.symm.trans next)
  have same : allocator'.base = system.allocator.base ∧
      allocator'.size = system.allocator.size := by
    rcases kept.intact.malloc small with ⟨unserved, -⟩ | served
    · rw [unserved] at result
      cases result
    · obtain ⟨_, _, _, _, _, -, -, served, -, -, -, base, whole⟩ := served
      rw [served] at result
      obtain ⟨-, rfl⟩ := Prod.mk.inj (Option.some_inj.mp result)
      exact ⟨base, whole⟩
  have blocks := kept'.liveBlocks
  obtain ⟨low, high⟩ := blocks.inside (q, size) (.head _)
  refine ⟨⟨?_, ?_, (List.pairwise_cons.mp blocks.apart).1⟩, tiles', kept'⟩
  · rw [Allocator.start, ← same.1]
    exact low
  · rw [Allocator.stop, ← same.1, ← same.2]
    exact high

theorem small_of_given (kept : Kept system tiles) (given : Given system q size) :
    size + 15 < 2 ^ 64 := by
  have high := given.high
  have order := kept.intact.order
  have inside := kept.intact.inside
  rw [Allocator.start] at order
  omega

theorem mallocGives_iff (kept : Kept system tiles) :
    MallocGives system size ↔ Unserved tiles size ∨ size + 15 < 2 ^ 64 := by
  constructor
  · rintro ⟨p, allocator', result, gives⟩
    rcases kept.intact.serve size with ⟨-, unserved⟩ | ⟨front, n, back, -, -, served⟩
    · exact .inl unserved
    · rw [served] at result
      obtain ⟨rfl, -⟩ := Prod.mk.inj (Option.some_inj.mp result)
      exact .inr (kept.small_of_given (gives _ rfl))
  · intro condition
    rcases kept.intact.serve size with ⟨result, -⟩ | ⟨front, n, back, rfl, best, served⟩
    · exact ⟨none, _, result, nofun⟩
    · refine ⟨_, _, served, fun q isGiven => ?_⟩
      obtain rfl := Option.some_inj.mp isGiven
      rcases condition with unserved | small
      · exact absurd best.1 (unserved n (by simp))
      · exact (kept.given small served).1

theorem callocGives_iff (kept : Kept system tiles) : CallocGives system memb size ↔
      Unserved tiles (word (memb * size)) ∨ memb * size + 15 < 2 ^ 64 := by
  constructor
  · rintro ⟨p, allocator', result, gives⟩
    rcases kept.intact.serve (word (memb * size)) with ⟨-, unserved⟩ | ⟨_, _, _, -, -, served⟩
    · exact .inl unserved
    · simp only [calloc, served] at result
      obtain ⟨rfl, -⟩ := Prod.mk.inj (Option.some_inj.mp result)
      exact .inr (kept.small_of_given (gives _ rfl).1)
  · intro condition
    rcases kept.intact.serve (word (memb * size)) with
      ⟨result, -⟩ | ⟨front, n, back, rfl, best, served⟩
    · refine ⟨none, system.allocator, ?_, nofun⟩
      simp only [calloc, result]
      rfl
    · refine ⟨_, _, by simp only [calloc, served]; rfl, fun q isGiven => ?_⟩
      obtain rfl := Option.some_inj.mp isGiven
      rcases condition with unserved | small
      · exact absurd best.1 (unserved n (by simp))
      · have less : memb * size < 2 ^ 64 := by omega
        have whole : word (memb * size) = memb * size := by
          rw [word]
          exact Nat.mod_eq_of_lt less
        rw [whole] at served ⊢
        refine ⟨(kept.given small served).1, fun i inside => ?_⟩
        rw [memsetZero, byte_fill inside, Nat.zero_div, Nat.zero_mod]

theorem used_of_live (kept : Kept system tiles) (live : (p, old) ∈ system.live) :
    ∃ front n back, tiles = front ++ .used n old :: back ∧
      p = system.allocator.start + bytes front + headerSize ∧
      room system.allocator p + headerSize = n ∧ old + headerSize ≤ n := by
  obtain ⟨⟨start, requested⟩, isUsed, equal⟩ := List.mem_map.mp (kept.used.mem_iff.mpr live)
  obtain ⟨rfl, rfl⟩ := Prod.mk.inj equal
  obtain ⟨front, n, back, rfl, here⟩ := exists_of_mem_usedBlocks isUsed
  simp only at here
  subst here
  obtain ⟨⟨isSize, -, -, -⟩, fits, -⟩ := kept.intact.tiled.rest
  refine ⟨front, n, back, rfl, rfl, ?_, fits⟩
  simp only [room, Nat.add_sub_cancel, isSize]
  simp only [headerSize] at fits ⊢
  omega

theorem free_keeps (kept : Kept system tiles) (live : (p, old) ∈ system.live)
    (other : (q, size) ∈ system.live) (ne : p ≠ q) :
    ∃ returned allocator', free system.allocator p = some (returned, allocator') ∧
      ∀ address, q ≤ address → address < q + size →
        allocator'.memory address = system.allocator.memory address := by
  obtain ⟨front, n, back, rfl, rfl, -, fits⟩ := kept.used_of_live live
  obtain ⟨⟨start, requested⟩, isUsed, equal⟩ := List.mem_map.mp (kept.used.mem_iff.mpr other)
  obtain ⟨rfl, rfl⟩ := Prod.mk.inj equal
  have enough : (freeBlocks system.allocator.start front).length < system.allocator.size + 1 := by
    have all := kept.intact.freeBlocks_le
    rw [freeBlocks_append, List.length_append] at all
    omega
  obtain ⟨returned, allocator', result, frame⟩ :=
    free_of_findBefore (p := system.allocator.start + bytes front + headerSize)
      (by rw [Nat.add_sub_cancel]; exact findBefore_spec kept.intact.tiled enough)
  refine ⟨returned, allocator', result, fun address low high => ?_⟩
  have struct := kept.intact.tiled.apart_lastFree isUsed
  have apart : start + headerSize + requested ≤ system.allocator.start + bytes front ∨
      system.allocator.start + bytes front + n ≤ start := by
    rw [usedBlocks_append] at isUsed
    rcases List.mem_append.mp isUsed with before | behind
    · exact Or.inl (kept.intact.tiled.le_of_mem_front before)
    · rcases List.mem_cons.mp behind with same | later
      · rw [(Prod.mk.inj same).1] at ne
        exact absurd rfl ne
      · exact Or.inr (kept.intact.tiled.rest.2.2.usedBlocks_spec.2 _ later).1
  simp only [headerSize, blockStruct, Nat.add_sub_cancel] at *
  apply frame <;> omega

theorem live_nodup (kept : Kept system tiles) : (system.live.map Prod.fst).Nodup := by
  have nodup := List.Nodup.map (f := fun start => start + headerSize)
    (fun a b same => Nat.add_right_cancel same) kept.nodup
  rw [List.map_map] at nodup
  apply (kept.used.map Prod.fst).nodup_iff.mp
  rw [List.map_map]
  exact nodup

theorem realloc_keeps (kept : Kept system tiles) (live : (p, old) ∈ system.live)
    (small : size + 15 < 2 ^ 64)
    (result : malloc system.allocator size = some (some q, allocator')) :
    ∃ returned last, free { allocator' with memory := memcpy allocator'.memory q p size } p =
        some (returned, last) ∧
      ∀ i < min old size, byte last.memory q i = byte system.allocator.memory p i := by
  obtain ⟨-, tiles', kept'⟩ := kept.given small result
  have same : ∀ address, address < q ∨ q + size ≤ address →
      memcpy allocator'.memory q p size address = allocator'.memory address :=
    fun address away => away.elim fill_of_lt fill_of_le
  have copied := kept'.fill (.head _) same
  have ne : p ≠ q := by
    rintro rfl
    exact (List.nodup_cons.mp kept'.live_nodup).1 (List.mem_map.mpr ⟨_, live, rfl⟩)
  obtain ⟨returned, last, freed, frame⟩ :=
    copied.free_keeps (.tail _ live) (.head _) ne
  refine ⟨returned, last, freed, fun i less => ?_⟩
  obtain ⟨isOld, isNew⟩ := Nat.lt_min.mp less
  obtain ⟨⟨start, requested⟩, isUsed, equal⟩ := List.mem_map.mp (kept.used.mem_iff.mpr live)
  obtain ⟨rfl, rfl⟩ := Prod.mk.inj equal
  have low : start + headerSize ≤ start + headerSize + 8 * (i / 8) := Nat.le_add_right _ _
  have high : start + headerSize + 8 * (i / 8) < start + headerSize + requested := by
    simp only at isOld
    omega
  have source := kept.intact.malloc_keeps result isUsed low high
  rw [byte, frame _ (Nat.le_add_right _ _) (by omega), ← byte, memcpy, byte_fill isNew, source,
    byte]

theorem reallocKeeps_iff (kept : Kept system tiles) (live : (p, old) ∈ system.live) :
    ReallocKeeps system p old size ↔ Unserved tiles size ∨ size ≤ room system.allocator p := by
  have some_ : p ≠ 0 := by
    have := (kept.liveBlocks.inside _ live).1
    simp only [headerSize] at this
    omega
  rcases kept.intact.serve size with ⟨result, unserved⟩ | ⟨front, n, back, split, best, served⟩
  · -- nothing is given, and nothing is read
    refine ⟨fun _ => Or.inl unserved, fun _ => ⟨⟨none, [], system.allocator⟩, ?_, by rintro _ ⟨⟩, rfl⟩⟩
    simp only [realloc, result]
    rfl
  · generalize (Bestfit.take system.allocator (realSize size)
      (lastFree system.allocator.headblock system.allocator.start front)) = taken at served
    obtain ⟨q, allocator'⟩ := taken
    have result : malloc system.allocator size = some (some q, allocator') := served
    have moves : realloc system.allocator p size =
        (free { allocator' with memory := memcpy allocator'.memory q p size } p).map
          fun freed => ⟨some q, [(p, size)], freed.2⟩ := by
      simp only [realloc, result]
      rw [Option.bind_eq_bind, Option.bind_some]
      simp only [if_neg some_]
      cases free { allocator' with memory := memcpy allocator'.memory q p size } p <;> rfl
    constructor
    · rintro ⟨moved, isMoved, reads, -⟩
      rw [moves] at isMoved
      obtain ⟨freed, -, rfl⟩ := Option.map_eq_some_iff.mp isMoved
      have within := (reads _ (List.mem_singleton.mpr rfl)).2
      exact Or.inr (Nat.le_of_add_le_add_left within)
    · rintro (unserved | shorter)
      · exact absurd best.1 (unserved n (by rw [split]; simp))
      · have small : size + 15 < 2 ^ 64 := by
          obtain ⟨front', m, back', rfl, -, whole, -⟩ := kept.used_of_live live
          have mem : .used m old ∈ front' ++ .used m old :: back' := by simp
          have within := kept.intact.size_le mem
          have order := kept.intact.order
          have inside := kept.intact.inside
          simp only [Tile.size, headerSize] at within whole
          omega
        obtain ⟨returned, last, freed, bytes⟩ := kept.realloc_keeps live small result
        refine ⟨⟨some q, [(p, size)], last⟩, ?_, fun read mem => ?_,
          (kept.given small result).1, bytes⟩
        · rw [moves, freed]
          rfl
        · rw [List.mem_singleton.mp mem]
          exact ⟨Nat.le_refl _, Nat.add_le_add_left shorter _⟩

/-- **When `realloc`, `calloc` and `malloc` do what they promise**, at a live block and for any
sizes. -/
theorem requests_iff (kept : Kept system tiles) (live : (p, old) ∈ system.live) :
    (ReallocKeeps system p old size ↔ Unserved tiles size ∨ size ≤ room system.allocator p) ∧
      (CallocGives system memb size ↔
        Unserved tiles (word (memb * size)) ∨ memb * size + 15 < 2 ^ 64) ∧
      (MallocGives system size ↔ Unserved tiles size ∨ size + 15 < 2 ^ 64) :=
  ⟨kept.reallocKeeps_iff live, kept.callocGives_iff, kept.mallocGives_iff⟩

end Kept

def hundred : System :=
  (System.step ⟨fresh 4096 1024, []⟩ (.malloc 100)).getD ⟨fresh 4096 1024, []⟩

theorem hundred_kept : ∃ tiles, Kept hundred tiles := by
  have isInit : init 4096 1024 zeros = some (fresh 4096 1024) := rfl
  obtain ⟨system', tiles', steps, kept⟩ :=
    @Kept.step _ _ (kept_init (by decide) isInit) (.malloc 100) (by decide) trivial
  refine ⟨tiles', ?_⟩
  rw [hundred, steps]
  exact kept

theorem hundred_live : hundred.live = [(4152, 100)] := by
  decide +kernel

theorem reallocKeeps_hundred : ReallocKeeps hundred 4152 100 50 := by
  obtain ⟨tiles, kept⟩ := hundred_kept
  have live : (4152, 100) ∈ hundred.live := by
    rw [hundred_live]
    exact List.mem_singleton.mpr rfl
  apply (@Kept.requests_iff _ _ _ _ 1 _ kept live).1.mpr
  exact Or.inr (by decide +kernel)

/-- The block of a hundred bytes is made longer: what lies behind it is read. -/
theorem not_requests : ¬ ∀ system tiles p old memb size, Kept system tiles →
    (p, old) ∈ system.live → memb < 2 ^ 64 → size < 2 ^ 64 →
    ReallocKeeps system p old size ∧ CallocGives system memb size ∧ MallocGives system size := by
  intro all
  obtain ⟨tiles, kept⟩ := hundred_kept
  have live : (4152, 100) ∈ hundred.live := by
    rw [hundred_live]
    exact List.mem_singleton.mpr rfl
  obtain ⟨⟨moved, result, reads, -⟩, -⟩ :=
    all hundred tiles 4152 100 1 200 kept live (by decide) (by decide)
  have beyond : (realloc hundred.allocator 4152 200).map Moved.reads = some [(4152, 200)] := by
    decide +kernel
  rw [result] at beyond
  have within := (reads (4152, 200) (Option.some_inj.mp beyond ▸ List.mem_singleton.mpr rfl)).2
  have short : room hundred.allocator 4152 = 104 := by decide +kernel
  rw [short] at within
  exact absurd within (by decide)

end PhpExts.XCache.Bestfit
