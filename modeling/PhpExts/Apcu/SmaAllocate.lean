import PhpExts.Apcu.SmaBlocks
import Mathlib

/-!
# Taking memory from a segment

`Intact` is the invariant of the allocator: the tiles, the free list, the marks of the
used blocks and the sum of the free bytes.  `sma_allocate` keeps it when the request
does not wrap around in `size_t` and a block that is split leaves room for the header
of another (`Sensible`): with a fragment near the end of `size_t` the comparison in
front of the split wraps around, and with a size near it `realsize` does.
-/

namespace PhpExts.Apcu.Sma

open Function (update update_of_ne update_self)
open List (cons_append map_cons sum_cons)

open PhpExts.Library

structure Intact (layout : Layout) (segment : Segment) (tiles : List Tile) (list : List Nat) :
    Prop where
  tiled : Tiled segment.size segment.prevSize layout.start tiles layout.last
  first : segment.prevSize layout.start = 0
  sentinel : segment.size layout.last = 0 ∧ segment.fnext layout.last = 0
  linked : Linked segment.fnext segment.fprev (layout.header :: (list ++ [layout.last]))
  same : list.Perm (freeBlocks layout.start tiles)
  marked : ∀ block ∈ usedBlocks layout.start tiles, segment.fnext block.1 = 0
  avail : segment.avail = freeTotal tiles + blockSize

theorem Layout.order (layout : Layout) :
    layout.header < layout.start ∧ layout.start + blockSize ≤ layout.last ∧
      layout.last < 2 ^ 64 := by
  have room := layout.room
  have word := layout.word
  simp only [Layout.start, Layout.last, blockSize] at room ⊢
  omega

theorem chain_nodup {layout : Layout} {list : List Nat} (nodup : list.Nodup)
    (inside : ∀ block ∈ list, layout.start ≤ block ∧ block < layout.last) :
    (layout.header :: (list ++ [layout.last])).Nodup := by
  have order := layout.order
  refine List.nodup_cons.mpr ⟨fun mem => ?_, List.nodup_append.mpr ⟨nodup, by simp, ?_⟩⟩
  · rcases List.mem_append.mp mem with isBlock | isLast
    · have bounds := inside _ isBlock
      omega
    · have eq := List.mem_singleton.mp isLast
      omega
  · intro block isBlock last isLast
    obtain rfl := List.mem_singleton.mp isLast
    exact (inside block isBlock).2.ne

variable {layout : Layout} {segment : Segment} {tiles : List Tile} {list : List Nat}

theorem Intact.inside (intact : Intact layout segment tiles list) :
    ∀ block ∈ list, layout.start ≤ block ∧ block < layout.last := fun _ mem =>
  intact.tiled.free_bounds (intact.same.mem_iff.mp mem)

theorem Intact.nodup (intact : Intact layout segment tiles list) :
    (layout.header :: (list ++ [layout.last])).Nodup :=
  chain_nodup (intact.same.nodup_iff.mpr intact.tiled.freeBlocks_nodup) intact.inside

theorem Tiled.used_ne_free {size prevSize : Nat → Nat} {start stop : Nat} {tiles : List Tile}
    (tiled : Tiled size prevSize start tiles stop) {block : Nat × Nat} {block' : Nat}
    (isUsed : block ∈ usedBlocks start tiles) (isFree : block' ∈ freeBlocks start tiles) :
    block.1 ≠ block' := by
  induction tiles generalizing start with
  | nil => cases isUsed
  | cons tile tiles ih =>
    obtain ⟨-, -, large, -, -, -, rest⟩ := tiled
    have positive : 0 < blockSize := Nat.succ_pos _
    cases tile with
    | free n =>
      simp only [Tile.size] at large rest
      rcases List.mem_cons.mp isFree with rfl | later
      · have bounds := rest.used_bounds isUsed
        omega
      · exact ih rest isUsed later
    | used n requested =>
      simp only [Tile.size] at large rest
      rcases List.mem_cons.mp isUsed with rfl | later
      · have bounds := rest.free_bounds isFree
        simp only
        omega
      · exact ih rest later isFree

theorem Linked.ends {next prev : Nat → Nat} {first last c : Nat} {nodes nodes' : List Nat}
    (linked : Linked next prev (first :: (nodes ++ c :: (nodes' ++ [last])))) :
    (prev c = first ∨ prev c ∈ nodes) ∧ (next c = last ∨ next c ∈ nodes') := by
  obtain ⟨front, back, left, right⟩ := linked.exists_neighbours
  have isLeft : prev c ∈ first :: nodes := by rw [left]; simp
  have isRight : next c ∈ nodes' ++ [last] := by rw [right]; simp
  refine ⟨List.mem_cons.mp isLeft, ?_⟩
  rcases List.mem_append.mp isRight with inNodes | isLast
  · exact .inr inNodes
  · exact .inl (List.mem_singleton.mp isLast)

theorem findFit_spec {realsize last : Nat} (zero : segment.fnext last = 0) (rest : List Nat)
    (p : Nat) (linked : Linked segment.fnext segment.fprev (p :: (rest ++ [last])))
    (isZero : segment.size last = 0) (positive : 0 < realsize) (fuel : Nat) (prv : Nat)
    (found : findFit segment realsize fuel p = some prv) :
    segment.fnext prv ∈ rest ∧ segment.fprev (segment.fnext prv) = prv ∧
      realsize ≤ segment.size (segment.fnext prv) := by
  induction rest generalizing p fuel with
  | nil =>
    obtain ⟨⟨next, -⟩, -⟩ := List.isChain_cons_cons.mp linked
    cases fuel with
    | zero => cases found
    | succ fuel =>
      simp only [findFit, next] at found
      split at found
      · cases found
      · split at found
        · omega
        · cases fuel with
          | zero => cases found
          | succ fuel => simp [findFit, zero] at found
  | cons block rest ih =>
    obtain ⟨⟨next, prev⟩, tail⟩ := List.isChain_cons_cons.mp linked
    cases fuel with
    | zero => cases found
    | succ fuel =>
      simp only [findFit, next] at found
      split at found
      · cases found
      · split at found
        · rename_i large
          cases found
          exact ⟨by simp [next], by rw [next, prev], by rwa [next]⟩
        · obtain ⟨mem, back, large⟩ := ih block tail fuel found
          exact ⟨.tail _ mem, back, large⟩

theorem realSize_eq {size : Nat} (small : size + 39 < 2 ^ 64) :
    size + blockSize ≤ realSize size ∧ realSize size % 8 = 0 ∧ realSize size < 2 ^ 64 := by
  simp only [realSize, alignWord, add64, blockSize]
  omega

theorem Intact.locate (intact : Intact layout segment tiles list) {cur : Nat}
    (isFree : cur ∈ list) : ∃ nodes nodes' front back, list = nodes ++ cur :: nodes' ∧
      tiles = front ++ .free (segment.size cur) :: back ∧
      Tiled segment.size segment.prevSize layout.start front cur ∧
      Tiled segment.size segment.prevSize cur (.free (segment.size cur) :: back) layout.last ∧
      (nodes ++ nodes').Perm (freeBlocks layout.start front ++
        freeBlocks (cur + segment.size cur) back) := by
  obtain ⟨nodes, nodes', split⟩ := List.append_of_mem isFree
  obtain ⟨front, back, tilesAre, before, whole⟩ :=
    intact.tiled.exists_of_free (intact.same.mem_iff.mp isFree)
  refine ⟨nodes, nodes', front, back, split, tilesAre, before, whole, ?_⟩
  have same := intact.same
  rw [tilesAre, freeBlocks_append before, freeBlocks, split] at same
  exact List.Perm.cons_inv (List.perm_middle.symm.trans (same.trans List.perm_middle))

theorem Intact.chain (intact : Intact layout segment tiles list) {cur : Nat}
    {nodes nodes' : List Nat} (split : list = nodes ++ cur :: nodes') :
    Linked segment.fnext segment.fprev
        (layout.header :: (nodes ++ cur :: (nodes' ++ [layout.last]))) ∧
      (layout.header :: (nodes ++ cur :: (nodes' ++ [layout.last]))).Nodup := by
  have linked := intact.linked
  have nodup := intact.nodup
  rw [split, List.append_assoc, cons_append] at linked nodup
  exact ⟨linked, nodup⟩

theorem Intact.fprev_ne (intact : Intact layout segment tiles list) {cur : Nat}
    (isFree : cur ∈ list) : segment.fprev cur ≠ layout.last ∧
      ∀ block ∈ usedBlocks layout.start tiles, block.1 ≠ segment.fprev cur := by
  obtain ⟨nodes, nodes', split⟩ := List.append_of_mem isFree
  have order := layout.order
  rcases (Linked.ends (intact.chain split).1).1 with isHeader | isNode
  · rw [isHeader]
    refine ⟨by omega, fun block isUsed => ?_⟩
    have bounds := intact.tiled.used_bounds isUsed
    omega
  · have mem : segment.fprev cur ∈ list := by rw [split]; simp [isNode]
    have bounds := intact.inside _ mem
    exact ⟨bounds.2.ne, fun block isUsed =>
      intact.tiled.used_ne_free isUsed (intact.same.mem_iff.mp mem)⟩

theorem usedBlocks_take {size prevSize : Nat → Nat} {start middle : Nat} {front back : List Tile}
    (before : Tiled size prevSize start front middle) (n requested : Nat) :
    (usedBlocks start (front ++ .used n requested :: back)).Perm
      ((middle, requested) :: usedBlocks start (front ++ .free n :: back)) := by
  rw [usedBlocks_append before, usedBlocks_append before]
  exact List.perm_middle

theorem Intact.takeWhole (intact : Intact layout segment tiles list) {cur requested : Nat}
    (isFree : cur ∈ list) (fits : requested + blockSize ≤ segment.size cur) :
    ∃ tiles' list', Intact layout (takeWhole segment (segment.fprev cur) cur) tiles' list' ∧
      (usedBlocks layout.start tiles').Perm
        ((cur, requested) :: usedBlocks layout.start tiles) := by
  obtain ⟨nodes, nodes', front, back, split, tilesAre, before, whole, others⟩ :=
    intact.locate isFree
  obtain ⟨linked, nodup⟩ := intact.chain split
  obtain ⟨fprevLast, fprevUsed⟩ := intact.fprev_ne isFree
  have curInside := intact.inside cur isFree
  obtain ⟨-, prev, large, aligned, apart, -, rest⟩ := whole
  have positive : 0 < blockSize := Nat.succ_pos _
  simp only [Tile.size] at prev large rest
  refine ⟨front ++ .used (segment.size cur) requested :: back, nodes ++ nodes',
    ⟨?_, ?_, ⟨intact.sentinel.1, ?_⟩, ?_, ?_, ?_, ?_⟩, ?_⟩
  · refine (before.congr (fun _ _ _ => rfl) fun x _ high => ?_).append
      ⟨rfl, update_self _ _ _, large, aligned, by rintro ⟨⟩, fits,
        rest.update_start (.inl rfl)⟩
    exact update_of_ne (by omega) _ _
  · show update segment.prevSize _ 0 layout.start = 0
    rw [update_of_ne (by omega), intact.first]
  · show update (update segment.fnext _ _) cur 0 layout.last = 0
    rw [update_of_ne curInside.2.ne', update_of_ne (Ne.symm fprevLast),
      intact.sentinel.2]
  · have unlinked := linked.unlinkAt (.of_nodup nodup)
    rw [List.append_assoc]
    refine unlinked.congr (fun x mem => update_of_ne ?_ _ _) fun _ _ => rfl
    rintro rfl
    have isMember := List.dropLast_subset _ mem
    rw [← cons_append, List.nodup_append] at nodup
    rcases List.mem_append.mp (cons_append ▸ isMember) with left | right
    · exact nodup.2.2 x left x (by simp) rfl
    · exact (List.nodup_cons.mp nodup.2.1).1 right
  · rw [freeBlocks_append before]
    exact others
  · intro block mem
    show update (update segment.fnext _ _) cur 0 block.1 = 0
    have isUsed := (usedBlocks_take before _ _).mem_iff.mp mem
    rw [← tilesAre] at isUsed
    rcases List.mem_cons.mp isUsed with rfl | old
    · exact update_self _ _ _
    · rw [update_of_ne (intact.tiled.used_ne_free old (intact.same.mem_iff.mp isFree)),
        update_of_ne (fprevUsed block old)]
      exact intact.marked block old
  · have avail := intact.avail
    rw [tilesAre, freeTotal_append] at avail
    rw [freeTotal_append]
    simp only [Sma.takeWhole, freeTotal, map_cons, sum_cons, Tile.freeSize] at avail ⊢
    omega
  · rw [tilesAre]
    exact usedBlocks_take before _ _

theorem Intact.fresh (intact : Intact layout segment tiles list) {cur x : Nat}
    (isFree : cur ∈ list) (low : cur < x) (high : x < cur + segment.size cur) :
    x ∉ list ∧ x < layout.last ∧ ∀ block ∈ usedBlocks layout.start tiles, block.1 ≠ x := by
  obtain ⟨nodes, nodes', front, back, split, tilesAre, before, whole, others⟩ :=
    intact.locate isFree
  obtain ⟨-, -, large, -, -, -, rest⟩ := whole
  simp only [Tile.size] at large rest
  have stop := rest.le
  refine ⟨fun mem => ?_, by omega, ?_⟩
  · rw [split, List.perm_middle.mem_iff, List.mem_cons] at mem
    rcases mem with rfl | mem
    · exact Nat.lt_irrefl _ low
    · rcases List.mem_append.mp (others.mem_iff.mp mem) with left | right
      · have bounds := before.free_bounds left
        omega
      · have bounds := rest.free_bounds right
        omega
  · rintro block mem rfl
    rw [tilesAre, usedBlocks_append before] at mem
    rcases List.mem_append.mp mem with left | right
    · have bounds := before.used_bounds left
      omega
    · have bounds := rest.used_bounds right
      omega

theorem Intact.splitBlock (intact : Intact layout segment tiles list) {cur requested realsize : Nat}
    (isFree : cur ∈ list) (aligned : realsize % 8 = 0) (fits : requested + blockSize ≤ realsize)
    (leaves : realsize + blockSize ≤ segment.size cur) :
    ∃ tiles' list', Intact layout (splitBlock segment cur realsize) tiles' list' ∧
      (usedBlocks layout.start tiles').Perm
        ((cur, requested) :: usedBlocks layout.start tiles) := by
  obtain ⟨nodes, nodes', front, back, split, tilesAre, before, whole, others⟩ :=
    intact.locate isFree
  obtain ⟨linked, nodup⟩ := intact.chain split
  obtain ⟨fprevLast, fprevUsed⟩ := intact.fprev_ne isFree
  have curInside := intact.inside cur isFree
  have order := layout.order
  have positive : 0 < blockSize := Nat.succ_pos _
  obtain ⟨unlisted, below, unused⟩ :=
    intact.fresh isFree (x := cur + realsize) (by omega) (by omega)
  obtain ⟨-, prev, large, curAligned, apart, -, rest⟩ := whole
  simp only [Tile.size, Tile.freeSize] at prev large rest
  have behind : cur + realsize + (segment.size cur - realsize) = cur + segment.size cur := by omega
  have used := @usedBlocks_take _ _ _ _ front (.free (segment.size cur - realsize) :: back) before
    realsize requested
  have unchanged : usedBlocks layout.start (front ++ .free realsize ::
      .free (segment.size cur - realsize) :: back) = usedBlocks layout.start tiles := by
    rw [tilesAre, usedBlocks_append before, usedBlocks_append before]
    simp only [usedBlocks, behind]
  rw [unchanged] at used
  refine ⟨front ++ .used realsize requested :: .free (segment.size cur - realsize) :: back,
    nodes ++ (cur + realsize) :: nodes', ⟨?_, ?_, ⟨?_, ?_⟩, ?_, ?_, ?_, ?_⟩, used⟩
  · refine (before.congr (fun x _ high => ?_) fun x _ high => ?_).append
      ⟨?_, ?_, by simp only [Tile.size]; omega, curAligned,
        by rintro ⟨⟩, fits, ?_, ?_,
        by simp only [Tile.size]; omega, by simp only [Tile.size]; omega, fun _ => ?_, trivial, ?_⟩
    · show update (update segment.size cur realsize) _ _ x = segment.size x
      rw [update_of_ne (by omega), update_of_ne (by omega)]
    · show update (update segment.prevSize _ 0) _ _ x = segment.prevSize x
      rw [update_of_ne (by omega), update_of_ne (by omega)]
    · show update (update segment.size cur realsize) _ _ cur = realsize
      rw [update_of_ne (by omega), update_self]
    · show update (update segment.prevSize _ 0) _ _ (cur + realsize) = 0
      rw [update_of_ne (by omega), update_self]
    · exact update_self _ _ _
    · exact update_self _ _ _
    · show update (update segment.prevSize _ 0) _ _ (cur + realsize) = 0
      rw [update_of_ne (by omega), update_self]
    · simp only [Tile.size, behind]
      have moved := @Tiled.update_start _ _ _ _ _ rest (segment.size cur - realsize)
        (.inr (rest.head_used (by omega)))
      refine moved.congr (fun x low _ => ?_) fun x low _ => ?_
      · show update (update segment.size cur realsize) _ _ x = segment.size x
        rw [update_of_ne (by omega), update_of_ne (by omega)]
      · show update (update segment.prevSize _ 0) _ _ x = _
        rw [behind, Function.update_comm (by omega), update_of_ne (by omega)]
  · show update (update segment.prevSize _ 0) _ _ layout.start = 0
    rw [update_of_ne (by omega), update_of_ne (by omega), intact.first]
  · show update (update segment.size cur realsize) _ _ layout.last = 0
    rw [update_of_ne (by omega), update_of_ne (by omega), intact.sentinel.1]
  · show update (update (update segment.fnext _ _) _ _) cur 0
      layout.last = 0
    rw [update_of_ne (by omega), update_of_ne (Ne.symm fprevLast),
      update_of_ne (by omega), intact.sentinel.2]
  · have middle := fun x => @List.nodup_middle Nat x (layout.header :: nodes) (nodes' ++ [layout.last])
    obtain ⟨outside, others⟩ := List.nodup_cons.mp ((middle cur).mp nodup)
    have new : cur + realsize ∉ layout.header :: nodes ++ (nodes' ++ [layout.last]) := by
      simp only [split, List.mem_append, List.mem_cons, not_or, List.not_mem_nil] at unlisted ⊢
      exact ⟨⟨by omega, unlisted.1⟩, unlisted.2.2, by omega, not_false⟩
    have replaced := linked.replaceAt
      (.of_nodup ((middle _).mpr (List.nodup_cons.mpr ⟨new, others⟩)))
    rw [List.append_assoc, cons_append]
    refine replaced.congr (fun x mem => update_of_ne ?_ _ _) fun _ _ => rfl
    rintro rfl
    have isMember : x ∈ layout.header :: nodes ++ (x + realsize) :: (nodes' ++ [layout.last]) :=
      List.dropLast_subset _ mem
    rcases List.mem_cons.mp (List.perm_middle.mem_iff.mp isMember) with same | isOther
    · omega
    · exact outside isOther
  · rw [freeBlocks_append before]
    simp only [freeBlocks, behind]
    exact List.perm_middle.trans ((others.cons _).trans List.perm_middle.symm)
  · intro block mem
    show update (update (update segment.fnext _ _) _ _) cur 0 block.1 = 0
    rcases List.mem_cons.mp (used.mem_iff.mp mem) with rfl | old
    · exact update_self _ _ _
    · rw [update_of_ne (intact.tiled.used_ne_free old (intact.same.mem_iff.mp isFree)),
        update_of_ne (fprevUsed block old), update_of_ne (unused block old)]
      exact intact.marked block old
  · have avail := intact.avail
    rw [tilesAre, freeTotal_append] at avail
    rw [freeTotal_append]
    simp only [Sma.splitBlock, freeTotal, map_cons, sum_cons, Tile.freeSize] at avail ⊢
    omega

/-! ## `sma_allocate` -/

/-- A request that `size_t` holds with what is added to it, and that leaves room for the
header of another block where it has a block split. -/
def Sensible (layout : Layout) (segment : Segment) (size fragment : Nat) : Prop :=
  ∀ prv, realSize size ≤ segment.avail →
    findFit segment (realSize size) (segment.avail + 1) layout.header = some prv →
    size + 39 < 2 ^ 64 ∧
      (tooSmallToSplit (segment.size (segment.fnext prv)) (realSize size) fragment = true ∨
        realSize size + blockSize ≤ segment.size (segment.fnext prv))

theorem Intact.smaAllocate (intact : Intact layout segment tiles list) {size fragment : Nat}
    (sensible : Sensible layout segment size fragment) :
    (smaAllocate layout segment size fragment = (segment, none)) ∨
    ∃ segment' tiles' list' cur, smaAllocate layout segment size fragment =
        (segment', some (cur + blockSize)) ∧ Intact layout segment' tiles' list' ∧
      (usedBlocks layout.start tiles').Perm ((cur, size) :: usedBlocks layout.start tiles) := by
  unfold Sma.smaAllocate
  by_cases full : segment.avail < realSize size
  · exact .inl (if_pos full)
  · simp only [if_neg full]
    cases found : findFit segment (realSize size) (segment.avail + 1) layout.header with
    | none => exact .inl rfl
    | some prv =>
      obtain ⟨small, room⟩ := sensible prv (Nat.le_of_not_lt full) found
      obtain ⟨fits, aligned, -⟩ := realSize_eq small
      have positive : 0 < blockSize := Nat.succ_pos _
      obtain ⟨isFree, back, large⟩ := findFit_spec intact.sentinel.2 list layout.header
        intact.linked intact.sentinel.1 (by omega) _ prv found
      right
      by_cases whole :
          tooSmallToSplit (segment.size (segment.fnext prv)) (realSize size) fragment = true
      · simp only [if_pos whole]
        obtain ⟨tiles', list', intact', used⟩ :=
          @Intact.takeWhole _ _ _ _ intact _ size isFree (fits.trans large)
        rw [back] at intact'
        exact ⟨_, tiles', list', _, rfl, intact', used⟩
      · simp only [if_neg whole]
        obtain ⟨tiles', list', intact', used⟩ :=
          intact.splitBlock isFree aligned fits (room.resolve_left whole)
        exact ⟨_, tiles', list', _, rfl, intact', used⟩

end PhpExts.Apcu.Sma
