import PhpExts.XCache.BestfitBlocks
import Mathlib

/-!
# The calls of a best-fit allocator

`Intact` is what holds between calls.  `Intact.malloc` and `Intact.free` say what a call does to
the tiles: a block is taken, or split, or joined with the free blocks on either side.
-/

namespace PhpExts.XCache.Bestfit

open Function (update_of_ne)
open List (append_assoc cons_ne_nil mem_cons)

section

variable {front back : List Tile} {size requested : Nat}

theorem apart_used : Apart (front ++ .used size requested :: back) ↔ Apart front ∧ Apart back := by
  simp [Apart, List.isChain_append, List.isChain_cons, Tile.isFree]

theorem apart_free : Apart (front ++ .free size :: back) ↔ Apart front ∧ Apart back ∧
      (∀ tile ∈ front.getLast?, tile.isFree = false) ∧
      ∀ tile ∈ back.head?, tile.isFree = false := by
  simp only [Apart, List.isChain_append, List.isChain_cons, Tile.isFree, List.head?_cons,
    Option.mem_some_iff, forall_eq', and_true, true_and, Bool.not_eq_true]
  tauto

end

def Suits (realsize size : Nat) : Prop := size = realsize ∨ realsize + blockStruct < size

def BestFit (realsize size : Nat) (tiles : List Tile) : Prop :=
  Suits realsize size ∧ ∀ other, .free other ∈ tiles → Suits realsize other → size ≤ other

section

variable {memory : Nat → Nat} {residue prev start stop realsize fuel minsize : Nat}
  {tiles front back : List Tile} {b : Option Nat}

theorem search_spec (tiled : Tiled memory residue prev start tiles stop)
    (small : blockStruct + realsize < 2 ^ 64) (enough : (freeBlocks start tiles).length < fuel) :
    ∃ found, search memory realsize fuel prev b minsize = some found ∧
      ((∃ front size back, tiles = front ++ .free size :: back ∧
          found = some (lastFree prev start front) ∧ (size = realsize ∨ size < minsize) ∧
          BestFit realsize size tiles) ∨
        found = b ∧ ∀ other, .free other ∈ tiles → Suits realsize other →
          other ≠ realsize ∧ minsize ≤ other) := by
  induction tiles generalizing prev start fuel b minsize with
  | nil =>
    obtain ⟨fuel, rfl⟩ := Nat.exists_eq_add_of_lt enough
    refine ⟨b, ?_, .inr ⟨rfl, nofun⟩⟩
    simp [search, tiled.2]
  | cons tile tiles ih =>
    cases tile with
    | used size requested =>
      obtain ⟨found, result, best | ⟨same, others⟩⟩ := ih tiled.2.2 enough
      · obtain ⟨front, n, back, rfl, isFound, less, suits, least⟩ := best
        refine ⟨found, result, .inl ⟨.used size requested :: front, n, back, rfl, isFound,
          less, suits, fun other mem => least other ?_⟩⟩
        exact (List.mem_cons.mp mem).resolve_left nofun
      · refine ⟨found, result, .inr ⟨same, fun other mem => others other ?_⟩⟩
        exact (List.mem_cons.mp mem).resolve_left nofun
    | free size =>
      obtain ⟨⟨isSize, -, clear, -⟩, link, rest⟩ := tiled
      have nonzero : start ≠ 0 := by
        simp only [blockStruct] at clear
        omega
      cases fuel with
      | zero => exact absurd enough (Nat.not_lt_zero _)
      | succ fuel =>
        have enough' := Nat.lt_of_succ_lt_succ enough
        have sum : word (blockStruct + realsize) = realsize + blockStruct := by
          rw [word, Nat.mod_eq_of_lt small, Nat.add_comm]
        simp only [search, link, nonzero, isSize, sum, if_false]
        by_cases perfect : size = realsize
        · refine ⟨some prev, if_pos perfect, .inl ⟨[], size, tiles, rfl, rfl, .inl perfect,
            .inl perfect, fun other _ suits => ?_⟩⟩
          rcases suits with rfl | large
          · exact Nat.le_of_eq perfect
          · omega
        rw [if_neg perfect]
        by_cases better : realsize + blockStruct < size ∧ size < minsize
        · -- this block is the best so far
          rw [if_pos better]
          obtain ⟨found, result, best | ⟨same, others⟩⟩ :=
            @ih start (start + size) fuel size (some prev) rest enough'
          · obtain ⟨front, n, back, rfl, isFound, less, suits, least⟩ := best
            refine ⟨found, result, .inl ⟨.free size :: front, n, back, rfl, isFound,
              by omega, suits, fun other mem fits => ?_⟩⟩
            rcases List.mem_cons.mp mem with same | later
            · obtain rfl := Tile.free.inj same
              omega
            · exact least other later fits
          · refine ⟨found, result, .inl ⟨[], size, tiles, rfl, same, .inr better.2,
              .inr better.1, fun other mem fits => ?_⟩⟩
            rcases List.mem_cons.mp mem with same' | later
            · obtain rfl := Tile.free.inj same'
              exact le_rfl
            · exact (others other later fits).2
        · rw [if_neg better]
          obtain ⟨found, result, best | ⟨same, others⟩⟩ :=
            @ih start (start + size) fuel minsize b rest enough'
          · obtain ⟨front, n, back, rfl, isFound, less, suits, least⟩ := best
            refine ⟨found, result, .inl ⟨.free size :: front, n, back, rfl, isFound,
              less, suits, fun other mem fits => ?_⟩⟩
            rcases List.mem_cons.mp mem with same | later
            · obtain rfl := Tile.free.inj same
              rcases fits with exactly | large
              · exact absurd exactly perfect
              · omega
            · exact least other later fits
          · refine ⟨found, result, .inr ⟨same, fun other mem fits => ?_⟩⟩
            rcases List.mem_cons.mp mem with same' | later
            · obtain rfl := Tile.free.inj same'
              rcases fits with exactly | large
              · exact absurd exactly perfect
              · exact ⟨perfect, by omega⟩
            · exact others other later fits

theorem findBefore_spec {size requested : Nat}
    (tiled : Tiled memory residue prev start (front ++ .used size requested :: back) stop)
    (enough : (freeBlocks start front).length < fuel) :
    findBefore memory (start + bytes front) fuel prev = some (lastFree prev start front) := by
  induction front generalizing prev start fuel with
  | nil =>
    obtain ⟨fuel, rfl⟩ := Nat.exists_eq_add_of_lt enough
    have behind := (show Tiled memory residue prev (start + size) back stop from
      tiled.2.2).next_eq_or
    have ends : ¬ (next memory prev ≠ 0 ∧ next memory prev < start + bytes []) := by
      rw [bytes_nil]
      omega
    exact if_neg ends
  | cons tile front ih =>
    cases tile with
    | free n =>
      obtain ⟨⟨isSize, -, clear, -⟩, link, rest⟩ := tiled
      have room := rest.clear (by simp)
      simp only [blockStruct] at clear room
      cases fuel with
      | zero => exact absurd enough (Nat.not_lt_zero _)
      | succ fuel =>
        have goesOn : start ≠ 0 ∧ start < start + (n + bytes front) := by omega
        simp only [findBefore, link, bytes_cons, Tile.size]
        rw [if_pos goesOn, ← Nat.add_assoc]
        exact ih rest (Nat.lt_of_succ_lt_succ enough)
    | used n asked =>
      rw [bytes_cons, Tile.size, ← Nat.add_assoc]
      exact ih tiled.2.2 enough

end

section

variable {memory : Nat → Nat} {residue prev start stop size : Nat} {front back : List Tile}

theorem takeIn_of_lt {cur b address : Nat} (low : address < cur) :
    takeIn memory cur b address = memory address := by
  rw [takeIn, setNext, setSize, update_of_ne (by omega),
    update_of_ne (by omega)]

theorem combinePrev_spec
    (tiled : Tiled memory residue prev start (front ++ .free size :: back) stop)
    (first : prev + memory prev < start) (positive : ∀ tile ∈ front, 0 < tile.size)
    (apart : Apart front) : ∃ memory' front' size',
      combinePrev memory (lastFree prev start front) (start + bytes front) =
        (memory', start + bytes front') ∧
      Tiled memory' residue prev start (front' ++ .free size' :: back) stop ∧
      memory' prev = memory prev ∧ Apart front' ∧ (∀ tile ∈ front'.getLast?, tile.isFree = false) ∧
      usedBlocks start front' = usedBlocks start front ∧ (∀ tile ∈ front', tile ∈ front) ∧
      bytes front' + size' = bytes front + size ∧
      freeTotal front' + size' = freeTotal front + size ∧ size ≤ size' := by
  rw [combinePrev]
  rcases List.eq_nil_or_concat front with rfl | ⟨front', tile, rfl⟩
  · refine ⟨memory, [], size, if_neg (Nat.ne_of_lt first), tiled, rfl, .nil, nofun, rfl, nofun,
      rfl, rfl, le_rfl⟩
  rw [List.concat_eq_append] at tiled positive apart ⊢
  rw [lastFree_concat]
  have whole := tiled
  rw [append_assoc] at tiled
  have here := tiled.rest
  cases tile with
  | free size' =>
    obtain ⟨apart', -, used, -⟩ := apart_free.mp apart
    have ends : start + bytes (front' ++ [.free size']) = start + bytes front' + size' := by
      simp [Tile.size, Nat.add_assoc]
    refine ⟨takeIn memory (start + bytes front') (start + bytes front' + size'), front',
      size' + size, ?_, tiled.graft (cons_ne_nil _ _)
      (fun address low _ => takeIn_of_lt low) here.takeIn, takeIn_of_lt (by omega), apart', used,
      ?_, fun tile mem => List.mem_append_left _ mem, ?_, ?_, Nat.le_add_left _ _⟩
    · simp only [Tile.isFree, if_true, ends, here.1.1]
    · rw [usedBlocks_append]
      exact (List.append_nil _).symm
    · simp [Tile.size, Nat.add_assoc]
    · simp [Tile.freeSize, Nat.add_assoc]
  | used size' requested =>
    have before := here.1.2.2.2
    have large := positive (.used size' requested) (by simp)
    have away : lastFree prev start front' + memory (lastFree prev start front') ≠
        start + bytes (front' ++ [.used size' requested]) := by
      simp only [bytes_append, bytes_cons, bytes_nil, Tile.size] at large ⊢
      omega
    exact ⟨memory, _, size, if_neg away, whole, rfl, apart, by simp [Tile.isFree], rfl,
      fun tile mem => mem, rfl, rfl, le_rfl⟩

theorem combineNext_spec
    (tiled : Tiled memory residue prev start (front ++ .free size :: back) stop)
    (positive : ∀ tile ∈ back, 0 < tile.size) (apart : Apart back) : ∃ size' back',
      Tiled (combineNext memory (start + bytes front)) residue prev start
        (front ++ .free size' :: back') stop ∧
      combineNext memory (start + bytes front) prev = memory prev ∧ Apart back' ∧
      (∀ tile ∈ back'.head?, tile.isFree = false) ∧
      (∀ place, usedBlocks (place + size') back' = usedBlocks (place + size) back) ∧
      (∀ tile ∈ back', tile ∈ back) ∧
      freeTotal back' + size' = freeTotal back + size ∧ size ≤ size' := by
  have here := tiled.rest
  have clear := here.1.2.2.1
  simp only [blockStruct] at clear
  have low := tiled.clear (by simp)
  simp only [blockStruct] at low
  simp only [combineNext, here.1.1]
  cases back with
  | nil =>
    have away : start + bytes front + size ≠ next memory (start + bytes front) := by
      rw [here.2.2.2]
      omega
    refine ⟨size, [], ?_⟩
    rw [if_neg away]
    exact ⟨tiled, rfl, apart, by rintro _ ⟨⟩, fun _ => rfl, by rintro _ ⟨⟩, rfl, le_rfl⟩
  | cons tile back =>
    cases tile with
    | free size' =>
      obtain ⟨-, apart', -, used⟩ := (@apart_free [] _ _).mp apart
      rw [if_pos here.2.2.2.1.symm, here.2.2.2.1]
      refine ⟨size + size', back, tiled.graft (cons_ne_nil _ _)
        (fun address low _ => takeIn_of_lt low) here.takeIn, takeIn_of_lt (by omega), apart',
        used, fun place => ?_, fun tile mem => .tail _ mem, ?_,
        Nat.le_add_right _ _⟩
      · rw [← Nat.add_assoc]
        rfl
      · rw [freeTotal_cons, Tile.freeSize]
        omega
    | used size' requested =>
      have large := positive (.used size' requested) (.head _)
      have behind := @Tiled.next_eq_or _ _ _ _ _ back here.2.2.2.2
      simp only [Tile.size] at large
      have away : start + bytes front + size ≠ next memory (start + bytes front) := by omega
      refine ⟨size, .used size' requested :: back, ?_⟩
      rw [if_neg away]
      exact ⟨tiled, rfl, apart, by simp [Tile.isFree], fun _ => rfl, fun _ mem => mem,
        rfl, le_rfl⟩

end

/-! ## What holds between calls -/

structure Intact (allocator : Allocator) (tiles : List Tile) : Prop where
  tiled : Tiled allocator.memory (allocator.base % 8) allocator.headblock allocator.start tiles
    allocator.stop
  head : allocator.memory allocator.headblock = 0
  apart : Apart tiles
  nonempty : tiles ≠ []
  positive : allocator.start < allocator.stop → ∀ tile ∈ tiles, 0 < tile.size
  avail : allocator.avail = freeTotal tiles
  room : minSize ≤ allocator.size
  inside : allocator.base + allocator.size ≤ 2 ^ 64

theorem freeTotal_le (tiles : List Tile) : freeTotal tiles ≤ bytes tiles := by
  induction tiles with
  | nil => exact le_rfl
  | cons tile tiles ih =>
    rw [freeTotal_cons, bytes_cons]
    refine Nat.add_le_add ?_ ih
    cases tile with
    | free size => exact le_rfl
    | used size requested => exact Nat.zero_le _

theorem realSize_spec {size : Nat} (small : size + 15 < 2 ^ 64) :
    size + headerSize ≤ realSize size ∧ realSize size < size + 16 ∧ realSize size % 8 = 0 := by
  simp only [realSize, align, word, headerSize]
  omega

namespace Intact

variable {allocator : Allocator} {tiles front back back' : List Tile}

theorem order (intact : Intact allocator tiles) :
    allocator.headblock + 16 = allocator.start ∧ allocator.start ≤ allocator.stop ∧
      allocator.stop + 16 = allocator.base + allocator.size := by
  have room := intact.room
  simp only [minSize, blockStruct] at room
  simp only [Allocator.headblock, Allocator.start, Allocator.stop, blockStruct]
  refine ⟨trivial, ?_, ?_⟩ <;> omega

theorem size_le (intact : Intact allocator tiles) {tile : Tile} (mem : tile ∈ tiles) :
    allocator.start + tile.size ≤ allocator.stop := by
  have total := intact.tiled.le_stop
  obtain ⟨front, back, rfl⟩ := List.append_of_mem mem
  rw [bytes_append, bytes_cons] at total
  omega

theorem freeBlocks_le (intact : Intact allocator tiles) :
    (freeBlocks allocator.start tiles).length < allocator.size + 1 := by
  have order := intact.order
  have length := intact.tiled.length_le (by omega)
  have low : allocator.base ≤ allocator.headblock := Nat.le_add_right _ _
  omega

theorem le_avail (intact : Intact allocator tiles) {size : Nat} (mem : .free size ∈ tiles) :
    size ≤ allocator.avail := by
  rw [intact.avail]
  obtain ⟨front, back, rfl⟩ := List.append_of_mem mem
  rw [freeTotal_append, freeTotal_cons, Tile.freeSize]
  omega

theorem avail_le (intact : Intact allocator tiles) :
    allocator.start + allocator.avail ≤ allocator.stop := by
  rw [intact.avail, ← intact.tiled.le_stop]
  exact Nat.add_le_add_left (freeTotal_le tiles) _

theorem graft (intact : Intact allocator (front ++ back)) {memory : Nat → Nat} (some : back ≠ [])
    (same : ∀ address, address < allocator.start + bytes front →
      address ≠ lastFree allocator.headblock allocator.start front + 8 →
      memory address = allocator.memory address)
    (rest : Tiled memory (allocator.base % 8) (lastFree allocator.headblock allocator.start front)
      (allocator.start + bytes front) back' allocator.stop) :
    Tiled memory (allocator.base % 8) allocator.headblock allocator.start (front ++ back')
        allocator.stop ∧ memory allocator.headblock = 0 := by
  have order := intact.order
  have last := @lastFree_eq_or allocator.headblock allocator.start front
  refine ⟨intact.tiled.graft some same rest, ?_⟩
  rw [same _ (by omega) (by omega), intact.head]

end Intact

variable {allocator : Allocator} {tiles front back : List Tile} {size requested : Nat}

variable {allocator : Allocator} {tiles front back : List Tile} {size requested realsize n : Nat}

theorem Intact.take (intact : Intact allocator (front ++ .free n :: back))
    (suits : Suits realsize n) (fits : size + headerSize ≤ realsize) (aligns : realsize % 8 = 0) :
    ∃ taken allocator',
      take allocator realsize (lastFree allocator.headblock allocator.start front) =
        (allocator.start + bytes front + headerSize, allocator') ∧
      Intact allocator' (front ++ taken ++ back) ∧
      (∀ start, usedBlocks start taken = [(start, size)]) ∧ bytes taken = n ∧
      allocator'.base = allocator.base ∧ allocator'.size = allocator.size := by
  have here := intact.tiled.rest
  obtain ⟨⟨isSize, -, clear, -⟩, isNext, -⟩ := id here
  have positive := intact.positive
  have avail := intact.avail
  obtain ⟨frontApart, backApart, -, used⟩ := apart_free.mp intact.apart
  simp only [freeTotal_append, freeTotal_cons, Tile.freeSize] at avail
  simp only [Bestfit.take, isNext, isSize]
  by_cases perfect : n = realsize
  · rw [if_pos perfect]
    obtain ⟨tiled, head⟩ := intact.graft (cons_ne_nil _ _) (fun address _ away => by
      rw [setNext, update_of_ne away]) (here.unlink (perfect ▸ fits))
    refine ⟨[.used n size], _, rfl,
      ⟨?_, head, ?_, by simp, fun some tile mem => ?_, ?_, intact.room, intact.inside⟩,
      fun _ => rfl, rfl, rfl, rfl⟩
    · rwa [append_assoc]
    · rw [append_assoc]
      exact apart_used.mpr ⟨frontApart, backApart⟩
    · simp only [append_assoc, List.cons_append, List.nil_append, List.mem_append,
        mem_cons] at mem
      rcases mem with inFront | rfl | inBack
      · exact positive some tile (List.mem_append_left _ inFront)
      · exact positive some (.free n) (by simp)
      · exact positive some tile (List.mem_append_right _ (.tail _ inBack))
    · simp only [freeTotal_append, freeTotal_cons, freeTotal_nil, Tile.freeSize]
      omega
  · -- the block is split
    have split : realsize + blockStruct < n := suits.resolve_left perfect
    have split' := split
    have fits' := fits
    simp only [blockStruct, headerSize] at split' fits'
    rw [if_neg perfect]
    obtain ⟨tiled, head⟩ := intact.graft (cons_ne_nil _ _) (fun address low away => by
      simp only [blockSetup, setNext, setSize]
      rw [update_of_ne away, update_of_ne (by omega),
        update_of_ne (by omega), update_of_ne (by omega)])
      (here.split fits aligns split)
    refine ⟨[.used realsize size, .free (n - realsize)], _, rfl,
      ⟨?_, head, ?_, by simp, fun some tile mem => ?_, ?_, intact.room, intact.inside⟩,
      fun _ => rfl, ?_, rfl, rfl⟩
    · rwa [append_assoc]
    · rw [append_assoc]
      refine apart_used.mpr ⟨frontApart, ?_⟩
      exact (@apart_free [] _ _).mpr ⟨.nil, backApart, by rintro _ ⟨⟩, used⟩
    · simp only [append_assoc, List.cons_append, List.nil_append, List.mem_append,
        mem_cons] at mem
      rcases mem with inFront | rfl | rfl | inBack
      · exact positive some tile (List.mem_append_left _ inFront)
      · simp only [Tile.size]
        omega
      · simp only [Tile.size]
        omega
      · exact positive some tile (List.mem_append_right _ (.tail _ inBack))
    · simp only [freeTotal_append, freeTotal_cons, freeTotal_nil, Tile.freeSize]
      omega
    · simp only [bytes_cons, bytes_nil, Tile.size]
      omega

theorem Intact.serve (intact : Intact allocator tiles) (size : Nat) :
    (malloc allocator size = some (none, allocator) ∧
        ∀ other, .free other ∈ tiles → ¬ Suits (realSize size) other) ∨
      ∃ front n back, tiles = front ++ .free n :: back ∧ BestFit (realSize size) n tiles ∧
        malloc allocator size = some ((Bestfit.take allocator (realSize size)
              (lastFree allocator.headblock allocator.start front)).map some id) := by
  have order := intact.order
  have inside := intact.inside
  have availLe := intact.avail_le
  simp only [Bestfit.malloc]
  by_cases short : allocator.avail < realSize size
  · refine .inl ⟨if_pos short, fun other mem suits => ?_⟩
    have le := intact.le_avail mem
    rcases suits with rfl | large <;> omega
  rw [if_neg short]
  obtain ⟨found, result, best | ⟨rfl, others⟩⟩ := @search_spec _ _ _ _ _ (realSize size) _
    ulongMax _ none intact.tiled (by simp only [blockStruct]; omega) intact.freeBlocks_le
  · obtain ⟨front, n, back, rfl, rfl, -, best⟩ := best
    refine .inr ⟨front, n, back, rfl, best, ?_⟩
    rw [result]
    rfl
  · refine .inl ⟨?_, fun other mem suits => ?_⟩
    · rw [result]
      rfl
    · have le := intact.size_le mem
      have bound := (others other mem suits).2
      simp only [Tile.size, ulongMax] at le bound
      omega

/-- **A block is taken where one suits, and it is the best fit.** -/
theorem Intact.malloc (intact : Intact allocator tiles) (small : size + 15 < 2 ^ 64) :
    (malloc allocator size = some (none, allocator) ∧
        ∀ other, .free other ∈ tiles → ¬ Suits (realSize size) other) ∨
      ∃ front n back taken allocator', tiles = front ++ .free n :: back ∧
        BestFit (realSize size) n tiles ∧ malloc allocator size =
          some (some (allocator.start + bytes front + headerSize), allocator') ∧
        Intact allocator' (front ++ taken ++ back) ∧
        (∀ start, usedBlocks start taken = [(start, size)]) ∧ bytes taken = n ∧
        allocator'.base = allocator.base ∧ allocator'.size = allocator.size := by
  obtain ⟨fits, less, aligns⟩ := realSize_spec small
  rcases intact.serve size with unserved | ⟨front, n, back, rfl, best, result⟩
  · exact .inl unserved
  · obtain ⟨taken, allocator', takes, intact', used, total, base, whole⟩ :=
      intact.take best.1 fits aligns
    refine .inr ⟨front, n, back, taken, allocator', rfl, best, ?_, intact', used, total, base,
      whole⟩
    rw [result, takes]
    rfl

theorem toInt_of_lt {n : Nat} (small : n < 2 ^ 31) : toInt n = n := by
  unfold toInt
  apply Int.bmod_eq_of_le_mul_two
  · omega
  · omega

/-- **A block is freed, and joined with the free blocks on either side.** -/
theorem Intact.free (intact : Intact allocator (front ++ .used n requested :: back))
    (small : n < 2 ^ 31)
    (room : blockStruct ≤ n ∨ allocator.start + bytes front + n = allocator.stop) :
    ∃ returned allocator' tiles', free allocator (allocator.start + bytes front + headerSize) =
        some (returned, allocator') ∧ Intact allocator' tiles' ∧
      usedBlocks allocator.start tiles' = usedBlocks allocator.start front ++
        usedBlocks (allocator.start + bytes front + n) back ∧
      allocator'.base = allocator.base ∧ allocator'.size = allocator.size := by
  have here := intact.tiled.rest
  obtain ⟨⟨isSize, -, clear, -⟩, fits, -⟩ := id here
  have order := intact.order
  have inside := intact.inside
  have total := intact.tiled.le_stop
  have avail := intact.avail
  have frontFree := freeTotal_le front
  have backFree := freeTotal_le back
  simp only [bytes_append, bytes_cons, freeTotal_append, freeTotal_cons, Tile.size,
    Tile.freeSize] at total avail
  simp only [blockStruct, headerSize] at clear fits room
  have positive := intact.positive (by omega)
  have frontPositive : ∀ tile ∈ front, 0 < tile.size := fun tile mem =>
    positive tile (List.mem_append_left _ mem)
  have backPositive : ∀ tile ∈ back, 0 < tile.size := fun tile mem =>
    positive tile (List.mem_append_right _ (.tail _ mem))
  have room' : blockStruct ≤ n ∨ back = [] := by
    refine room.imp_right fun ends => ?_
    cases back with
    | nil => rfl
    | cons tile back =>
      have large := backPositive tile (.head _)
      rw [bytes_cons] at total
      omega
  obtain ⟨frontApart, backApart⟩ := apart_used.mp intact.apart
  -- the block is linked in
  have enough : (freeBlocks allocator.start front).length < allocator.size + 1 := by
    have all := intact.freeBlocks_le
    rw [freeBlocks_append, List.length_append] at all
    omega
  have found := findBefore_spec intact.tiled enough
  obtain ⟨tiled, head⟩ := intact.graft (cons_ne_nil _ _) (fun address low away => by
    simp only [setNext]
    rw [update_of_ne away, update_of_ne (by omega)]) (here.link room')
  have sameSize : setNext (setNext allocator.memory (allocator.start + bytes front)
      (next allocator.memory (lastFree allocator.headblock allocator.start front)))
      (lastFree allocator.headblock allocator.start front) (allocator.start + bytes front)
      (allocator.start + bytes front) = n := tiled.rest.1.1
  -- and joined
  obtain ⟨memory', front', size', prevIs, tiled', head', apart', used', blocks', subset', bytes',
    free', large'⟩ := combinePrev_spec tiled (by rw [head]; omega) frontPositive frontApart
  obtain ⟨size'', back'', tiled'', head'', apart'', used'', blocks'', subset'', free'', large''⟩ :=
    combineNext_spec tiled' backPositive backApart
  refine ⟨(toInt n % 2 ^ 64).toNat, { allocator with
    avail := allocator.avail + n
    memory := combineNext memory' (allocator.start + bytes front') },
    front' ++ .free size'' :: back'', ?_, ⟨tiled'', ?_, ?_, by simp, fun _ tile mem => ?_, ?_,
    intact.room, intact.inside⟩, ?_, rfl, rfl⟩
  · have wraps : ((allocator.avail + toInt n) % 2 ^ 64).toNat = allocator.avail + n := by
      rw [toInt_of_lt small]
      omega
    simp only [Bestfit.free, Nat.add_sub_cancel, found, Option.bind_eq_bind, Option.bind_some,
      sameSize, prevIs, wraps]
  · exact head''.trans (head'.trans head)
  · exact apart_free.mpr ⟨apart', apart'', used', used''⟩
  · simp only [List.mem_append, mem_cons] at mem
    rcases mem with inFront | rfl | inBack
    · exact frontPositive tile (subset' tile inFront)
    · simp only [Tile.size]
      omega
    · exact backPositive tile (subset'' tile inBack)
  · simp only [freeTotal_append, freeTotal_cons, Tile.freeSize]
    omega
  · rw [usedBlocks_append, blocks', usedBlocks, blocks'', Nat.add_assoc, Nat.add_assoc, bytes']

end PhpExts.XCache.Bestfit
