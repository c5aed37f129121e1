import PhpExts.XCache.Bestfit
import Mathlib

/-!
# The blocks of a best-fit allocator

The memory is read as the list of its tiles: the blocks in the order of their addresses, free
ones and used ones.  `Tiled` says that they lie one behind the other and that the free ones are
linked.  What happens at a block is stated for the memory from this block on (`Tiled.rest`,
`Tiled.enter`) and carried over to the whole memory by `Tiled.graft`.
-/

namespace PhpExts.XCache.Bestfit

open Function (update_of_ne update_self)

inductive Tile where
  | free (size : Nat)
  | used (size requested : Nat)
  deriving DecidableEq

namespace Tile

def size : Tile → Nat
  | free size | used size _ => size

/-- What a block adds to `avail`. -/
def freeSize : Tile → Nat
  | free size => size
  | used _ _ => 0

def isFree : Tile → Bool
  | free _ => true
  | used _ _ => false

end Tile

def bytes (tiles : List Tile) : Nat := (tiles.map Tile.size).sum

def freeTotal (tiles : List Tile) : Nat := (tiles.map Tile.freeSize).sum

def freeBlocks : Nat → List Tile → List (Nat × Nat)
  | _, [] => []
  | start, .free size :: tiles => (start, size) :: freeBlocks (start + size) tiles
  | start, .used size _ :: tiles => freeBlocks (start + size) tiles

def usedBlocks : Nat → List Tile → List (Nat × Nat)
  | _, [] => []
  | start, .free size :: tiles => usedBlocks (start + size) tiles
  | start, .used size requested :: tiles => (start, requested) :: usedBlocks (start + size) tiles

/-- The last free block, which is `prev` where all are used. -/
def lastFree : Nat → Nat → List Tile → Nat
  | prev, _, [] => prev
  | _, start, .free size :: tiles => lastFree start (start + size) tiles
  | prev, start, .used size _ :: tiles => lastFree prev (start + size) tiles

def Apart (tiles : List Tile) : Prop :=
  tiles.IsChain fun a b => ¬ (a.isFree = true ∧ b.isFree = true)

/-- A block of a size at `start`, clear of the struct and of the bytes of the free block `prev`
before it. -/
def Header (memory : Nat → Nat) (residue prev start size : Nat) : Prop :=
  memory start = size ∧ start % 8 = residue ∧ prev + blockStruct ≤ start ∧
    prev + memory prev ≤ start

/-- The blocks from `start` to `stop`, with the free ones linked behind `prev`. -/
def Tiled (memory : Nat → Nat) (residue : Nat) : Nat → Nat → List Tile → Nat → Prop
  | prev, start, [], stop => start = stop ∧ next memory prev = 0
  | prev, start, .free size :: tiles, stop =>
    Header memory residue prev start size ∧ next memory prev = start ∧
      Tiled memory residue start (start + size) tiles stop
  | prev, start, .used size requested :: tiles, stop =>
    Header memory residue prev start size ∧ requested + headerSize ≤ size ∧
      Tiled memory residue prev (start + size) tiles stop

section

variable {prev start : Nat} {tile : Tile} {tiles front back : List Tile}

@[simp] theorem bytes_nil : bytes [] = 0 := rfl

@[simp] theorem bytes_cons : bytes (tile :: tiles) = tile.size + bytes tiles :=
  List.sum_cons

@[simp] theorem bytes_append : bytes (front ++ back) = bytes front + bytes back := by
  simp [bytes]

@[simp] theorem freeTotal_nil : freeTotal [] = 0 := rfl

@[simp] theorem freeTotal_cons : freeTotal (tile :: tiles) = tile.freeSize + freeTotal tiles :=
  List.sum_cons

@[simp] theorem freeTotal_append :
    freeTotal (front ++ back) = freeTotal front + freeTotal back := by
  simp [freeTotal]

theorem freeBlocks_append : freeBlocks start (front ++ back) =
      freeBlocks start front ++ freeBlocks (start + bytes front) back := by
  induction front generalizing start with
  | nil => rfl
  | cons tile front ih =>
    cases tile with
    | free size => simp [freeBlocks, ih, Tile.size, Nat.add_assoc]
    | used size requested => simp [freeBlocks, ih, Tile.size, Nat.add_assoc]

theorem usedBlocks_append : usedBlocks start (front ++ back) =
      usedBlocks start front ++ usedBlocks (start + bytes front) back := by
  induction front generalizing start with
  | nil => rfl
  | cons tile front ih =>
    cases tile with
    | free size => simp [usedBlocks, ih, Tile.size, Nat.add_assoc]
    | used size requested => simp [usedBlocks, ih, Tile.size, Nat.add_assoc]

theorem lastFree_concat : lastFree prev start (front ++ [tile]) =
      if tile.isFree then start + bytes front else lastFree prev start front := by
  induction front generalizing prev start with
  | nil => cases tile <;> rfl
  | cons other front ih =>
    cases other with
    | free size => simp [lastFree, ih, Tile.size, Nat.add_assoc]
    | used size requested => simp [lastFree, ih, Tile.size, Nat.add_assoc]

theorem lastFree_eq_or : lastFree prev start tiles = prev ∨ start ≤ lastFree prev start tiles := by
  induction tiles generalizing prev start with
  | nil => exact .inl rfl
  | cons tile tiles ih =>
    cases tile with
    | free size =>
      rcases @ih start (start + size) with same | behind
      · exact .inr (Nat.le_of_eq same.symm)
      · exact .inr ((Nat.le_add_right _ _).trans behind)
    | used size requested =>
      exact (@ih prev (start + size)).imp_right (Nat.le_add_right _ _).trans

theorem exists_of_mem_usedBlocks {block : Nat × Nat} (mem : block ∈ usedBlocks start tiles) :
    ∃ front size back, tiles = front ++ .used size block.2 :: back ∧
      block.1 = start + bytes front := by
  induction tiles generalizing start with
  | nil => cases mem
  | cons tile tiles ih =>
    cases tile with
    | free size =>
      obtain ⟨front, n, back, rfl, here⟩ := ih mem
      exact ⟨.free size :: front, n, back, rfl, by simp [here, Tile.size, Nat.add_assoc]⟩
    | used size requested =>
      rcases List.mem_cons.mp mem with rfl | later
      · exact ⟨[], size, tiles, rfl, rfl⟩
      · obtain ⟨front, n, back, rfl, here⟩ := ih later
        exact ⟨.used size requested :: front, n, back, rfl, by
          simp [here, Tile.size, Nat.add_assoc]⟩

end

variable {memory memory' : Nat → Nat} {residue prev prev' start stop : Nat}
  {tiles front back back' : List Tile}

theorem Tiled.clear (tiled : Tiled memory residue prev start tiles stop) (more : tiles ≠ []) :
    prev + blockStruct ≤ start := by
  cases tiles with
  | nil => exact absurd rfl more
  | cons tile tiles =>
    cases tile with
    | free size => exact tiled.1.2.2.1
    | used size requested => exact tiled.1.2.2.1

theorem Tiled.le_stop (tiled : Tiled memory residue prev start tiles stop) :
    start + bytes tiles = stop := by
  induction tiles generalizing prev start with
  | nil => exact tiled.1
  | cons tile tiles ih =>
    cases tile with
    | free size => simpa [Tile.size, Nat.add_assoc] using ih tiled.2.2
    | used size requested => simpa [Tile.size, Nat.add_assoc] using ih tiled.2.2

theorem Tiled.next_eq_or (tiled : Tiled memory residue prev start tiles stop) :
    next memory prev = 0 ∨ start ≤ next memory prev := by
  induction tiles generalizing start with
  | nil => exact .inl tiled.2
  | cons tile tiles ih =>
    cases tile with
    | free size => exact .inr (Nat.le_of_eq tiled.2.1.symm)
    | used size requested => exact (ih tiled.2.2).imp_right (Nat.le_add_right _ _).trans

theorem Tiled.rest (tiled : Tiled memory residue prev start (front ++ back) stop) :
    Tiled memory residue (lastFree prev start front) (start + bytes front) back stop := by
  induction front generalizing prev start with
  | nil => exact tiled
  | cons tile front ih =>
    cases tile with
    | free size => simpa [Tile.size, Nat.add_assoc, lastFree] using ih tiled.2.2
    | used size requested => simpa [Tile.size, Nat.add_assoc, lastFree] using ih tiled.2.2

theorem Tiled.enter (tiled : Tiled memory residue prev start tiles stop)
    (same : next memory' prev' = next memory prev)
    (apart : tiles ≠ [] → prev' + blockStruct ≤ start ∧ prev' + memory' prev' ≤ start ∧
      ∀ address, start ≤ address → memory' address = memory address) :
    Tiled memory' residue prev' start tiles stop := by
  induction tiles generalizing prev prev' start with
  | nil => exact ⟨tiled.1, same.trans tiled.2⟩
  | cons tile tiles ih =>
    obtain ⟨clear, before, agree⟩ := apart (List.cons_ne_nil _ _)
    cases tile with
    | free size =>
      obtain ⟨⟨isSize, aligned, -, -⟩, link, rest⟩ := tiled
      have isSize' : memory' start = size := (agree start le_rfl).trans isSize
      refine ⟨⟨isSize', aligned, clear, before⟩, same.trans link,
        ih rest (agree _ (Nat.le_add_right _ _)) fun more => ⟨rest.clear more, ?_, ?_⟩⟩
      · rw [isSize']
      · exact fun address behind => agree address ((Nat.le_add_right _ _).trans behind)
    | used size requested =>
      obtain ⟨⟨isSize, aligned, -, -⟩, fits, rest⟩ := tiled
      refine ⟨⟨(agree start le_rfl).trans isSize, aligned, clear, before⟩, fits,
        ih rest same fun _ => ⟨by omega, by omega, ?_⟩⟩
      exact fun address behind => agree address ((Nat.le_add_right _ _).trans behind)

theorem Tiled.graft (tiled : Tiled memory residue prev start (front ++ back) stop)
    (some : back ≠ []) (same : ∀ address, address < start + bytes front →
      address ≠ lastFree prev start front + 8 → memory' address = memory address)
    (rest : Tiled memory' residue (lastFree prev start front) (start + bytes front) back' stop) :
    Tiled memory' residue prev start (front ++ back') stop := by
  induction front generalizing prev start with
  | nil => exact rest
  | cons tile front ih =>
    have more : front ++ back ≠ [] := by simp [some]
    cases tile with
    | free size =>
      obtain ⟨⟨isSize, aligned, clear, before⟩, link, behind⟩ := tiled
      have room := behind.clear more
      have last := @lastFree_eq_or start (start + size) front
      simp only [bytes_cons, Tile.size, lastFree, blockStruct, next] at *
      refine ⟨⟨?_, aligned, clear, ?_⟩, ?_, ih behind (fun address low apart => ?_) ?_⟩
      · rw [same start (by omega) (by omega), isSize]
      · rwa [same prev (by omega) (by omega)]
      · exact (same _ (by omega) (by omega)).trans link
      · exact same address (by omega) apart
      · rwa [Nat.add_assoc]
    | used size requested =>
      obtain ⟨⟨isSize, aligned, clear, before⟩, fits, behind⟩ := tiled
      have last := @lastFree_eq_or prev (start + size) front
      simp only [bytes_cons, Tile.size, lastFree, blockStruct, headerSize] at *
      refine ⟨⟨?_, aligned, clear, ?_⟩, fits, ih behind (fun address low apart => ?_) ?_⟩
      · rw [same start (by omega) (by omega), isSize]
      · rwa [same prev (by omega) (by omega)]
      · exact same address (by omega) apart
      · rwa [Nat.add_assoc]

theorem Tiled.length_le (tiled : Tiled memory residue prev start tiles stop)
    (behind : prev ≤ start) : prev + 16 * (freeBlocks start tiles).length ≤ stop := by
  induction tiles generalizing prev start with
  | nil => exact behind.trans (Nat.le_of_eq tiled.1)
  | cons tile tiles ih =>
    cases tile with
    | free size =>
      have rest := ih tiled.2.2 (Nat.le_add_right _ _)
      have clear := tiled.1.2.2.1
      simp only [freeBlocks, List.length_cons, blockStruct] at rest clear ⊢
      omega
    | used size requested => exact ih tiled.2.2 (behind.trans (Nat.le_add_right _ _))

theorem Tiled.sorted (tiled : Tiled memory residue prev start tiles stop) :
    (freeBlocks start tiles).Pairwise (fun a b => a.1 < b.1) ∧
      ∀ block ∈ freeBlocks start tiles, prev < block.1 := by
  induction tiles generalizing prev start with
  | nil => exact ⟨.nil, nofun⟩
  | cons tile tiles ih =>
    cases tile with
    | free size =>
      obtain ⟨order, behind⟩ := ih tiled.2.2
      have clear := tiled.1.2.2.1
      simp only [blockStruct] at clear
      refine ⟨List.pairwise_cons.mpr ⟨behind, order⟩, fun block mem => ?_⟩
      rcases List.mem_cons.mp mem with rfl | later
      · simp only
        omega
      · have := behind block later
        omega
    | used size requested => exact ih tiled.2.2

/-! ## Steps at a block -/

variable {b cur size size' requested realsize : Nat}

theorem Tiled.link (tiled : Tiled memory residue b cur (.used size requested :: back) stop)
    (room : blockStruct ≤ size ∨ back = []) :
    Tiled (setNext (setNext memory cur (next memory b)) b cur) residue b cur
      (.free size :: back) stop := by
  obtain ⟨⟨isSize, aligned, clear, before⟩, -, rest⟩ := tiled
  simp only [blockStruct] at clear room
  simp only [setNext]
  refine ⟨⟨?_, aligned, clear, ?_⟩, update_self .., rest.enter ?_ fun some => ?_⟩
  · rw [update_of_ne (by omega), update_of_ne (by omega), isSize]
  · rwa [update_of_ne (by omega), update_of_ne (by omega)]
  · rw [next, update_of_ne (by omega), update_self]
  · have large := room.resolve_right some
    refine ⟨by simp only [blockStruct]; omega, ?_, fun address behind => ?_⟩
    · rw [update_of_ne (by omega), update_of_ne (by omega), isSize]
    · rw [update_of_ne (by omega), update_of_ne (by omega)]

theorem Tiled.takeIn (tiled : Tiled memory residue b cur (.free size :: .free size' :: back) stop) :
    Tiled (takeIn memory cur (cur + size)) residue b cur (.free (size + size') :: back) stop := by
  obtain ⟨⟨isSize, aligned, clear, before⟩, link, ⟨isSize', -, clear', -⟩, -, rest⟩ := tiled
  simp only [blockStruct, next] at clear clear' link
  simp only [Bestfit.takeIn, setNext, setSize, isSize, isSize']
  refine ⟨⟨?_, aligned, clear, ?_⟩, ?_, ?_⟩
  · rw [update_of_ne (by omega), update_self]
  · rwa [update_of_ne (by omega), update_of_ne (by omega)]
  · rw [next, update_of_ne (by omega), update_of_ne (by omega), link]
  · rw [← Nat.add_assoc]
    refine rest.enter (update_self ..) fun some => ?_
    have more := rest.clear some
    simp only [blockStruct] at more ⊢
    refine ⟨by omega, ?_, fun address behind => ?_⟩
    · rw [update_of_ne (by omega), update_self, ← Nat.add_assoc]
    · rw [update_of_ne (by omega), update_of_ne (by omega)]

theorem Tiled.unlink (tiled : Tiled memory residue b cur (.free size :: back) stop)
    (fits : requested + headerSize ≤ size) :
    Tiled (setNext memory b (next memory cur)) residue b cur (.used size requested :: back)
      stop := by
  obtain ⟨⟨isSize, aligned, clear, before⟩, -, rest⟩ := tiled
  simp only [blockStruct] at clear
  refine ⟨⟨?_, aligned, clear, ?_⟩, fits,
    rest.enter (update_self ..) fun _ => ⟨?_, ?_, fun address behind => ?_⟩⟩
  · rw [setNext, update_of_ne (by omega), isSize]
  · rwa [setNext, update_of_ne (by omega)]
  · simp only [blockStruct]
    omega
  · rw [setNext, update_of_ne (by omega)]
    omega
  · rw [setNext, update_of_ne (by omega)]

theorem Tiled.split (tiled : Tiled memory residue b cur (.free size :: back) stop)
    (fits : requested + headerSize ≤ realsize) (aligns : realsize % 8 = 0)
    (large : realsize + blockStruct < size) :
    Tiled (setNext (setSize (blockSetup memory (cur + realsize) (size - realsize)
        (next memory cur)) cur realsize) b (cur + realsize)) residue b cur
      (.used realsize requested :: .free (size - realsize) :: back) stop := by
  obtain ⟨⟨isSize, aligned, clear, before⟩, -, rest⟩ := tiled
  simp only [blockStruct, headerSize] at clear large fits
  simp only [blockSetup, setNext, setSize]
  refine ⟨⟨?_, aligned, clear, ?_⟩, fits, ⟨?_, by omega, ?_, ?_⟩, update_self .., ?_⟩
  · rw [update_of_ne (by omega), update_self]
  · rwa [update_of_ne (by omega), update_of_ne (by omega),
      update_of_ne (by omega), update_of_ne (by omega)]
  · rw [update_of_ne (by omega), update_of_ne (by omega),
      update_of_ne (by omega), update_self]
  · simp only [blockStruct]
    omega
  · rw [update_of_ne (by omega), update_of_ne (by omega),
      update_of_ne (by omega), update_of_ne (by omega)]
    omega
  · have whole : cur + realsize + (size - realsize) = cur + size := by omega
    rw [whole]
    refine rest.enter ?_ fun _ => ⟨?_, ?_, fun address behind => ?_⟩
    · rw [next, update_of_ne (by omega), update_of_ne (by omega),
        update_self]
    · simp only [blockStruct]
      omega
    · rw [update_of_ne (by omega), update_of_ne (by omega),
        update_of_ne (by omega), update_self]
      omega
    · rw [update_of_ne (by omega), update_of_ne (by omega),
        update_of_ne (by omega), update_of_ne (by omega)]

theorem Tiled.fill (tiled : Tiled memory residue b cur (.used size requested :: back) stop)
    (same : ∀ address, address < cur + headerSize ∨ cur + headerSize + requested ≤ address →
      memory' address = memory address) :
    Tiled memory' residue b cur (.used size requested :: back) stop := by
  obtain ⟨⟨isSize, aligned, clear, before⟩, fits, rest⟩ := tiled
  simp only [blockStruct, headerSize] at clear fits same
  refine ⟨⟨?_, aligned, clear, ?_⟩, fits,
    rest.enter ?_ fun _ => ⟨?_, ?_, fun other behind => ?_⟩⟩
  · rw [same _ (by omega), isSize]
  · rwa [same _ (by omega)]
  · rw [next, same _ (by omega), next]
  · simp only [blockStruct]
    omega
  · rw [same _ (by omega)]
    omega
  · rw [same _ (by omega)]

end PhpExts.XCache.Bestfit
