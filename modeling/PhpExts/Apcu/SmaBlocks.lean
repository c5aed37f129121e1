import Mathlib.Data.List.Perm.Basic
import PhpExts.Apcu.Sma
import PhpExts.Library.Linked

/-!
# The blocks of a segment

A segment is read as the list of its tiles: the blocks in the order of their
addresses, free ones and used ones.  `Tiled` says that they lie one behind the other
with the right sizes and that no two free ones are neighbours.
-/

namespace PhpExts.Apcu.Sma

open PhpExts.Library

inductive Tile where
  | free (size : Nat)
  | used (size requested : Nat)
  deriving DecidableEq

namespace Tile

def size : Tile → Nat
  | free size | used size _ => size

/-- What the block behind has to say in `prev_size`. -/
def freeSize : Tile → Nat
  | free size => size
  | used _ _ => 0

def isFree : Tile → Bool
  | free _ => true
  | used _ _ => false

/-- A used block has room for what was asked for. -/
def Fits : Tile → Prop
  | free _ => True
  | used size requested => requested + blockSize ≤ size

end Tile

/-- The blocks from `start` to `stop`, over the fields `size` and `prev_size`. -/
def Tiled (size prevSize : Nat → Nat) : Nat → List Tile → Nat → Prop
  | start, [], stop => start = stop
  | start, tile :: tiles, stop =>
    size start = tile.size ∧ prevSize (start + tile.size) = tile.freeSize ∧
      blockSize ≤ tile.size ∧ start % 8 = 0 ∧ (tile.isFree = true → prevSize start = 0) ∧
      tile.Fits ∧ Tiled size prevSize (start + tile.size) tiles stop

def freeBlocks : Nat → List Tile → List Nat
  | _, [] => []
  | start, .free size :: tiles => start :: freeBlocks (start + size) tiles
  | start, .used size _ :: tiles => freeBlocks (start + size) tiles

def usedBlocks : Nat → List Tile → List (Nat × Nat)
  | _, [] => []
  | start, .free size :: tiles => usedBlocks (start + size) tiles
  | start, .used size requested :: tiles =>
    (start, requested) :: usedBlocks (start + size) tiles

def freeTotal (tiles : List Tile) : Nat := (tiles.map Tile.freeSize).sum

variable {size prevSize size' prevSize' : Nat → Nat} {start middle stop : Nat}
  {tiles tiles' : List Tile}

theorem Tiled.le (tiled : Tiled size prevSize start tiles stop) : start ≤ stop := by
  induction tiles generalizing start with
  | nil => exact Nat.le_of_eq tiled
  | cons tile tiles ih => exact (Nat.le_add_right _ _).trans (ih tiled.2.2.2.2.2.2)

theorem Tiled.append (tiled : Tiled size prevSize start tiles middle)
    (tiled' : Tiled size prevSize middle tiles' stop) :
    Tiled size prevSize start (tiles ++ tiles') stop := by
  induction tiles generalizing start with
  | nil => rwa [show start = middle from tiled]
  | cons tile tiles ih =>
    obtain ⟨isSize, prev, large, aligned, apart, fits, rest⟩ := tiled
    exact ⟨isSize, prev, large, aligned, apart, fits, ih rest⟩

theorem Tiled.split (tiled : Tiled size prevSize start (tiles ++ tiles') stop) :
    ∃ middle, Tiled size prevSize start tiles middle ∧ Tiled size prevSize middle tiles' stop := by
  induction tiles generalizing start with
  | nil => exact ⟨start, rfl, tiled⟩
  | cons tile tiles ih =>
    obtain ⟨isSize, prev, large, aligned, apart, fits, rest⟩ := tiled
    obtain ⟨middle, first, second⟩ := ih rest
    exact ⟨middle, ⟨isSize, prev, large, aligned, apart, fits, first⟩, second⟩

theorem Tiled.congr (tiled : Tiled size prevSize start tiles stop)
    (sameSize : ∀ x, start ≤ x → x < stop → size' x = size x)
    (samePrev : ∀ x, start ≤ x → x ≤ stop → prevSize' x = prevSize x) :
    Tiled size' prevSize' start tiles stop := by
  induction tiles generalizing start with
  | nil => exact tiled
  | cons tile tiles ih =>
    obtain ⟨isSize, prev, large, aligned, apart, fits, rest⟩ := tiled
    have le := rest.le
    have positive : 0 < blockSize := Nat.succ_pos _
    refine ⟨?_, ?_, large, aligned, fun isFree => ?_, fits, ih rest (fun x low high => ?_)
      fun x low high => ?_⟩
    · rw [sameSize start le_rfl (by omega), isSize]
    · rw [samePrev _ (by omega) le, prev]
    · rw [samePrev start le_rfl (by omega), apart isFree]
    · exact sameSize x (by omega) high
    · exact samePrev x (by omega) high

theorem Tiled.update_start (tiled : Tiled size prevSize start tiles stop) {value : Nat}
    (allowed : value = 0 ∨ ∀ tile ∈ tiles.head?, tile.isFree = false) :
    Tiled size (Function.update prevSize start value) start tiles stop := by
  cases tiles with
  | nil => exact tiled
  | cons tile tiles =>
    obtain ⟨isSize, prev, large, aligned, apart, fits, rest⟩ := tiled
    have positive : 0 < blockSize := Nat.succ_pos _
    refine ⟨isSize, ?_, large, aligned, fun isFree => ?_, fits, rest.congr (fun _ _ _ => rfl)
      fun x low _ => Function.update_of_ne (by omega) _ _⟩
    · rw [Function.update_of_ne (by omega), prev]
    · rw [Function.update_self]
      rcases allowed with zero | used
      · exact zero
      · rw [used tile rfl] at isFree
        cases isFree

theorem Tiled.head_used (tiled : Tiled size prevSize start tiles stop)
    (behindFree : prevSize start ≠ 0) : ∀ tile ∈ tiles.head?, tile.isFree = false := by
  cases tiles with
  | nil => simp
  | cons tile tiles =>
    rintro _ ⟨⟩
    by_contra isFree
    rw [Bool.not_eq_false] at isFree
    exact behindFree (tiled.2.2.2.2.1 isFree)

theorem freeBlocks_append (tiled : Tiled size prevSize start tiles middle) :
    freeBlocks start (tiles ++ tiles') = freeBlocks start tiles ++ freeBlocks middle tiles' := by
  induction tiles generalizing start with
  | nil => rw [show start = middle from tiled]; rfl
  | cons tile tiles ih =>
    have rest := ih tiled.2.2.2.2.2.2
    cases tile <;> simp_all [freeBlocks, Tile.size]

theorem usedBlocks_append (tiled : Tiled size prevSize start tiles middle) :
    usedBlocks start (tiles ++ tiles') = usedBlocks start tiles ++ usedBlocks middle tiles' := by
  induction tiles generalizing start with
  | nil => rw [show start = middle from tiled]; rfl
  | cons tile tiles ih =>
    have rest := ih tiled.2.2.2.2.2.2
    cases tile <;> simp_all [usedBlocks, Tile.size]

theorem freeTotal_append : freeTotal (tiles ++ tiles') = freeTotal tiles + freeTotal tiles' := by
  simp [freeTotal]

theorem Tiled.free_bounds (tiled : Tiled size prevSize start tiles stop) {block : Nat}
    (mem : block ∈ freeBlocks start tiles) : start ≤ block ∧ block < stop := by
  induction tiles generalizing start with
  | nil => cases mem
  | cons tile tiles ih =>
    obtain ⟨-, -, large, -, -, -, rest⟩ := tiled
    have le := rest.le
    have positive : 0 < blockSize := Nat.succ_pos _
    cases tile with
    | free n =>
      simp only [Tile.size] at large le rest
      rcases List.mem_cons.mp mem with rfl | later
      · omega
      · have inside := ih rest later
        omega
    | used n requested =>
      simp only [Tile.size] at large le rest
      have inside := ih rest mem
      omega

theorem Tiled.used_bounds (tiled : Tiled size prevSize start tiles stop) {block : Nat × Nat}
    (mem : block ∈ usedBlocks start tiles) :
    start ≤ block.1 ∧ block.1 + blockSize + block.2 ≤ stop ∧ block.1 % 8 = 0 := by
  induction tiles generalizing start with
  | nil => cases mem
  | cons tile tiles ih =>
    obtain ⟨-, -, large, aligned, -, fits, rest⟩ := tiled
    have le := rest.le
    cases tile with
    | free n =>
      simp only [Tile.size] at large le rest
      have inside := ih rest mem
      omega
    | used n requested =>
      simp only [Tile.size, Tile.Fits] at large le rest fits
      rcases List.mem_cons.mp mem with rfl | later
      · simp only
        omega
      · have inside := ih rest later
        omega

theorem Tiled.freeBlocks_nodup (tiled : Tiled size prevSize start tiles stop) :
    (freeBlocks start tiles).Nodup := by
  induction tiles generalizing start with
  | nil => exact .nil
  | cons tile tiles ih =>
    obtain ⟨-, -, large, -, -, -, rest⟩ := tiled
    have positive : 0 < blockSize := Nat.succ_pos _
    cases tile with
    | free n =>
      refine List.nodup_cons.mpr ⟨fun mem => ?_, ih rest⟩
      have inside := rest.free_bounds mem
      simp only [Tile.size] at large inside
      omega
    | used n requested => exact ih rest

theorem Tiled.exists_of_free (tiled : Tiled size prevSize start tiles stop) {block : Nat}
    (mem : block ∈ freeBlocks start tiles) :
    ∃ front back, tiles = front ++ .free (size block) :: back ∧
      Tiled size prevSize start front block ∧
      Tiled size prevSize block (.free (size block) :: back) stop := by
  induction tiles generalizing start with
  | nil => cases mem
  | cons tile tiles ih =>
    have whole := tiled
    obtain ⟨isSize, prev, large, aligned, apart, fits, rest⟩ := tiled
    cases tile with
    | free n =>
      rcases List.mem_cons.mp mem with rfl | later
      · have sizeIs : size block = n := isSize
        rw [sizeIs]
        exact ⟨[], tiles, rfl, rfl, whole⟩
      · obtain ⟨front, back, split, first, second⟩ := ih rest later
        exact ⟨.free n :: front, back, by rw [split]; rfl,
          ⟨isSize, prev, large, aligned, apart, fits, first⟩, second⟩
    | used n requested =>
      obtain ⟨front, back, split, first, second⟩ := ih rest mem
      exact ⟨.used n requested :: front, back, by rw [split]; rfl,
        ⟨isSize, prev, large, aligned, apart, fits, first⟩, second⟩

theorem Tiled.exists_of_used (tiled : Tiled size prevSize start tiles stop) {block requested : Nat}
    (mem : (block, requested) ∈ usedBlocks start tiles) :
    ∃ front back, tiles = front ++ .used (size block) requested :: back ∧
      Tiled size prevSize start front block ∧
      Tiled size prevSize block (.used (size block) requested :: back) stop := by
  induction tiles generalizing start with
  | nil => cases mem
  | cons tile tiles ih =>
    have whole := tiled
    obtain ⟨isSize, prev, large, aligned, apart, fits, rest⟩ := tiled
    cases tile with
    | free n =>
      obtain ⟨front, back, split, first, second⟩ := ih rest mem
      exact ⟨.free n :: front, back, by rw [split]; rfl,
        ⟨isSize, prev, large, aligned, apart, fits, first⟩, second⟩
    | used n asked =>
      rcases List.mem_cons.mp mem with same | later
      · obtain ⟨rfl, rfl⟩ := Prod.mk.inj same
        have sizeIs : size block = n := isSize
        rw [sizeIs]
        exact ⟨[], tiles, rfl, rfl, whole⟩
      · obtain ⟨front, back, split, first, second⟩ := ih rest later
        exact ⟨.used n asked :: front, back, by rw [split]; rfl,
          ⟨isSize, prev, large, aligned, apart, fits, first⟩, second⟩

end PhpExts.Apcu.Sma
