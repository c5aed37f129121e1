import PhpExts.Apcu.SmaAllocate

/-!
# Giving memory back to a segment

`sma_deallocate` passes through states in which one block, the hole, is neither used
nor free.  `Opened` describes these; joining the hole with a free neighbour keeps it,
and putting the hole into the free list leads back to `Intact`.
-/

namespace PhpExts.Apcu.Sma

open Function (update update_of_ne update_self)
open List (perm_middle map_cons sum_cons append_assoc)

open PhpExts.Library

/-- A segment with a hole of `size hole` bytes between the tiles `front` and `back`. -/
structure Opened (layout : Layout) (segment : Segment) (front : List Tile) (hole : Nat)
    (back : List Tile) (list : List Nat) : Prop where
  before : Tiled segment.size segment.prevSize layout.start front hole
  after : Tiled segment.size segment.prevSize (hole + segment.size hole) back layout.last
  large : blockSize ≤ segment.size hole
  aligned : hole % 8 = 0
  first : segment.prevSize layout.start = 0
  sentinel : segment.size layout.last = 0 ∧ segment.fnext layout.last = 0
  linked : Linked segment.fnext segment.fprev (layout.header :: (list ++ [layout.last]))
  same : list.Perm (freeBlocks layout.start front ++
    freeBlocks (hole + segment.size hole) back)
  marked : ∀ block ∈ usedBlocks layout.start front ++
    usedBlocks (hole + segment.size hole) back, segment.fnext block.1 = 0
  avail : segment.avail = freeTotal front + freeTotal back + segment.size hole + blockSize

variable {layout : Layout} {segment : Segment} {tiles front back : List Tile}
  {list : List Nat} {hole : Nat}

theorem Intact.opened (intact : Intact layout segment tiles list) {requested : Nat}
    (isUsed : (hole, requested) ∈ usedBlocks layout.start tiles) : ∃ front back,
      Opened layout { segment with avail := segment.avail + segment.size hole } front hole back
        list ∧
      (usedBlocks layout.start tiles).Perm ((hole, requested) ::
        (usedBlocks layout.start front ++ usedBlocks (hole + segment.size hole) back)) := by
  obtain ⟨front, back, tilesAre, before, whole⟩ := intact.tiled.exists_of_used isUsed
  obtain ⟨-, -, large, aligned, -, -, rest⟩ := whole
  have used : (usedBlocks layout.start tiles).Perm ((hole, requested) ::
      (usedBlocks layout.start front ++ usedBlocks (hole + segment.size hole) back)) := by
    rw [tilesAre, usedBlocks_append before]
    exact perm_middle
  have same := intact.same
  have avail := intact.avail
  rw [tilesAre, freeBlocks_append before] at same
  rw [tilesAre, freeTotal_append] at avail
  refine ⟨front, back, ⟨before, rest, large, aligned, intact.first, intact.sentinel,
    intact.linked, same, fun block mem => ?_, ?_⟩, used⟩
  · exact intact.marked block (used.mem_iff.mpr (.tail _ mem))
  · simp only [freeTotal, map_cons, sum_cons, Tile.freeSize] at avail ⊢
    omega

theorem Opened.bounds (opened : Opened layout segment front hole back list) :
    layout.start ≤ hole ∧ hole + segment.size hole ≤ layout.last :=
  ⟨opened.before.le, opened.after.le⟩

theorem Opened.inside (opened : Opened layout segment front hole back list) :
    ∀ block ∈ list, (layout.start ≤ block ∧ block < layout.last) ∧ block ≠ hole := by
  intro block mem
  have bounds := opened.bounds
  have large := opened.large
  have positive : 0 < blockSize := Nat.succ_pos _
  rcases List.mem_append.mp (opened.same.mem_iff.mp mem) with left | right
  · have inFront := opened.before.free_bounds left
    omega
  · have inBack := opened.after.free_bounds right
    omega

theorem Opened.nodup (opened : Opened layout segment front hole back list) :
    (layout.header :: (list ++ [layout.last])).Nodup := by
  refine chain_nodup (opened.same.nodup_iff.mpr (List.nodup_append.mpr
    ⟨opened.before.freeBlocks_nodup, opened.after.freeBlocks_nodup, ?_⟩))
    fun block mem => (opened.inside block mem).1
  intro block left block' right
  have inFront := opened.before.free_bounds left
  have inBack := opened.after.free_bounds right
  omega

theorem Opened.unlink (opened : Opened layout segment front hole back list) {block : Nat}
    (isFree : block ∈ list) : ∃ list', list.Perm (block :: list') ∧
      Linked (unlinkBlock segment block).fnext (unlinkBlock segment block).fprev
        (layout.header :: (list' ++ [layout.last])) ∧
      (unlinkBlock segment block).fnext layout.last = 0 ∧
      ∀ used ∈ usedBlocks layout.start front ++ usedBlocks (hole + segment.size hole) back,
        (unlinkBlock segment block).fnext used.1 = 0 := by
  obtain ⟨nodes, nodes', split⟩ := List.append_of_mem isFree
  have linked := opened.linked
  have nodup := opened.nodup
  have order := layout.order
  have bounds := opened.bounds
  have positive : 0 < blockSize := Nat.succ_pos _
  rw [split, append_assoc, List.cons_append] at linked nodup
  have unlinked := linked.unlinkAt (.of_nodup nodup)
  refine ⟨nodes ++ nodes', by rw [split]; exact perm_middle,
    by rw [append_assoc]; exact unlinked, ?_, fun used mem => ?_⟩
  · show update segment.fnext _ _ layout.last = 0
    rw [update_of_ne, opened.sentinel.2]
    rcases (Linked.ends linked).1 with isHeader | isNode
    · omega
    · have inside := opened.inside _ (show segment.fprev block ∈ list by rw [split]; simp [isNode])
      omega
  · show update segment.fnext _ _ used.1 = 0
    rw [update_of_ne, opened.marked used mem]
    rcases (Linked.ends linked).1 with isHeader | isNode
    · rcases List.mem_append.mp mem with left | right
      · have inFront := opened.before.used_bounds left
        omega
      · have inBack := opened.after.used_bounds right
        omega
    · have isBlock : segment.fprev block ∈ list := by rw [split]; simp [isNode]
      rcases List.mem_append.mp (opened.same.mem_iff.mp isBlock) with left | right
      · rcases List.mem_append.mp mem with left' | right'
        · exact opened.before.used_ne_free left' left
        · have inFront := opened.before.free_bounds left
          have inBack := opened.after.used_bounds right'
          omega
      · rcases List.mem_append.mp mem with left' | right'
        · have inFront := opened.before.used_bounds left'
          have inBack := opened.after.free_bounds right
          omega
        · exact opened.after.used_ne_free right' right

theorem Opened.front_free (opened : Opened layout segment front hole back list)
    (isFree : segment.prevSize hole ≠ 0) :
    ∃ front' prv, front = front' ++ [.free (segment.size prv)] ∧
      Tiled segment.size segment.prevSize layout.start front' prv ∧
      segment.prevSize prv = 0 ∧ segment.prevSize hole = segment.size prv ∧
      blockSize ≤ segment.size prv ∧ prv % 8 = 0 ∧ prv + segment.size prv = hole := by
  have whole := opened.before
  rcases List.eq_nil_or_concat front with rfl | ⟨front', tile, rfl⟩
  · rw [← show layout.start = hole from whole, opened.first] at isFree
    exact absurd rfl isFree
  · rw [List.concat_eq_append] at whole ⊢
    obtain ⟨prv, before, isSize, prev, large, aligned, apart, -, rfl⟩ := whole.split
    cases tile with
    | free n =>
      have sizeIs : segment.size prv = n := isSize
      subst sizeIs
      exact ⟨front', prv, rfl, before, apart rfl, prev, large, aligned, rfl⟩
    | used n requested => exact absurd prev isFree

theorem Opened.joinPrevious (opened : Opened layout segment front hole back list) :
    ∃ front' hole' list', joinPrevious segment hole = ((joinPrevious segment hole).1, hole') ∧
      Opened layout (joinPrevious segment hole).1 front' hole' back list' ∧
      (joinPrevious segment hole).1.prevSize hole' = 0 ∧
      usedBlocks layout.start front' = usedBlocks layout.start front ∧
      hole' + (joinPrevious segment hole).1.size hole' = hole + segment.size hole := by
  unfold Sma.joinPrevious
  by_cases isUsed : segment.prevSize hole = 0
  · simp only [if_pos isUsed]
    exact ⟨front, hole, list, rfl, opened, isUsed, rfl, rfl⟩
  · simp only [if_neg isUsed]
    obtain ⟨front', prv, frontIs, before, first, prev, large, aligned, here⟩ :=
      opened.front_free isUsed
    have place : hole - segment.prevSize hole = prv := by omega
    have blocks : freeBlocks layout.start front = freeBlocks layout.start front' ++ [prv] := by
      rw [frontIs, freeBlocks_append before]
      rfl
    have used : usedBlocks layout.start front' = usedBlocks layout.start front := by
      rw [frontIs, usedBlocks_append before]
      exact (List.append_nil _).symm
    have isListed : prv ∈ list := opened.same.mem_iff.mpr (by rw [blocks]; simp)
    obtain ⟨list', same', linked, sentinel, marked⟩ := opened.unlink isListed
    have stop : prv + update segment.size prv (segment.size prv + segment.size hole) prv =
        hole + segment.size hole := by
      rw [update_self]
      omega
    rw [place]
    refine ⟨front', prv, list', rfl, ⟨?_, ?_, ?_, aligned, opened.first, ⟨?_, sentinel⟩, linked,
      ?_, ?_, ?_⟩, first, used, stop⟩
    · exact before.congr (fun x _ high => update_of_ne (by omega) _ _) fun _ _ _ => rfl
    · show Tiled _ _ (prv + update segment.size prv _ prv) back layout.last
      rw [stop]
      exact opened.after.congr (fun x low _ => update_of_ne (by omega) _ _)
        fun _ _ _ => rfl
    · show blockSize ≤ update segment.size prv _ prv
      rw [update_self]
      omega
    · have bounds := opened.bounds
      show update segment.size prv _ layout.last = 0
      rw [update_of_ne (by omega), opened.sentinel.1]
    · show list'.Perm (_ ++ freeBlocks (prv + update segment.size prv _ prv) back)
      have same := same'.symm.trans opened.same
      rw [blocks, append_assoc] at same
      rw [stop]
      exact List.Perm.cons_inv (same.trans perm_middle)
    · show ∀ block ∈ _ ++ usedBlocks (prv + update segment.size prv _ prv) back, _
      rw [stop, used]
      exact marked
    · have avail := opened.avail
      rw [frontIs, freeTotal_append] at avail
      show segment.avail = freeTotal front' + freeTotal back +
        update segment.size prv _ prv + blockSize
      rw [update_self]
      simp only [freeTotal, map_cons, sum_cons, Tile.freeSize, List.map_nil,
        List.sum_nil] at avail ⊢
      omega

theorem Opened.joinNext (opened : Opened layout segment front hole back list) :
    ∃ segment' back' list', joinNext segment hole = some segment' ∧
      Opened layout segment' front hole back' list' ∧ segment'.prevSize = segment.prevSize ∧
      (∀ tile ∈ back'.head?, tile.isFree = false) ∧ usedBlocks (hole + segment'.size hole) back' =
        usedBlocks (hole + segment.size hole) back := by
  unfold Sma.joinNext
  have after := opened.after
  have positive : 0 < blockSize := Nat.succ_pos _
  cases back with
  | nil =>
    have isLast : hole + segment.size hole = layout.last := after
    simp only [isLast, if_pos opened.sentinel.2]
    exact ⟨segment, [], list, rfl, opened, rfl, nofun, rfl⟩
  | cons tile back =>
    obtain ⟨isSize, prev, large, aligned, apart, -, rest⟩ := after
    cases tile with
    | used n requested =>
      have isUsed := opened.marked (hole + segment.size hole, requested)
        (List.mem_append_right _ (.head _))
      simp only [if_pos isUsed]
      exact ⟨segment, _, list, rfl, opened, rfl, by simp [Tile.isFree], rfl⟩
    | free n =>
      have sizeIs : segment.size (hole + segment.size hole) = n := isSize
      subst sizeIs
      simp only [Tile.size, Tile.freeSize] at prev large rest
      have order := layout.order
      have isListed : hole + segment.size hole ∈ list :=
        opened.same.mem_iff.mpr (List.mem_append_right _ (.head _))
      have hasNext : segment.fnext (hole + segment.size hole) ≠ 0 := by
        obtain ⟨nodes, nodes', split⟩ := List.append_of_mem isListed
        have linked := opened.linked
        rw [split, append_assoc, List.cons_append] at linked
        rcases (Linked.ends linked).2 with isLast | isNode
        · omega
        · have inside := opened.inside _
            (show segment.fnext (hole + segment.size hole) ∈ list by rw [split]; simp [isNode])
          omega
      obtain ⟨list', same', linked, sentinel, marked⟩ := opened.unlink isListed
      have holeLarge := opened.large
      have bounds := opened.bounds
      have stop : hole + update segment.size hole
          (segment.size hole + segment.size (hole + segment.size hole)) hole =
          hole + segment.size hole + segment.size (hole + segment.size hole) := by
        rw [update_self]
        omega
      simp only [if_neg hasNext, if_neg (not_not.mpr prev)]
      refine ⟨_, back, list', rfl, ⟨?_, ?_, ?_, opened.aligned, opened.first, ⟨?_, sentinel⟩,
        linked, ?_, ?_, ?_⟩, rfl, rest.head_used (by omega), ?_⟩
      · exact opened.before.congr (fun x _ high => update_of_ne (by omega) _ _)
          fun _ _ _ => rfl
      · show Tiled _ _ (hole + update segment.size hole _ hole) back layout.last
        rw [stop]
        exact rest.congr (fun x low _ => update_of_ne (by omega) _ _) fun _ _ _ => rfl
      · show blockSize ≤ update segment.size hole _ hole
        rw [update_self]
        omega
      · show update segment.size hole _ layout.last = 0
        rw [update_of_ne (by omega), opened.sentinel.1]
      · show list'.Perm (_ ++ freeBlocks (hole + update segment.size hole _ hole) back)
        rw [stop]
        exact List.Perm.cons_inv
          (same'.symm.trans (opened.same.trans perm_middle))
      · show ∀ block ∈ _ ++ usedBlocks (hole + update segment.size hole _ hole) back, _
        rw [stop]
        exact marked
      · have avail := opened.avail
        show segment.avail = freeTotal front + freeTotal back +
          update segment.size hole _ hole + blockSize
        rw [update_self]
        simp only [freeTotal, map_cons, sum_cons, Tile.freeSize] at avail ⊢
        omega
      · show usedBlocks (hole + update segment.size hole _ hole) back = _
        rw [stop]
        rfl

theorem Opened.insertBlock (opened : Opened layout segment front hole back list)
    (frontUsed : segment.prevSize hole = 0) (backUsed : ∀ tile ∈ back.head?, tile.isFree = false) :
    Intact layout (insertBlock layout segment hole) (front ++ .free (segment.size hole) :: back)
      (hole :: list) := by
  have bounds := opened.bounds
  have large := opened.large
  have order := layout.order
  have positive : 0 < blockSize := Nat.succ_pos _
  have nodup := opened.nodup
  have fresh : hole ∉ list := fun mem => (opened.inside hole mem).2 rfl
  refine ⟨?_, ?_, ⟨opened.sentinel.1, ?_⟩, ?_, ?_, ?_, ?_⟩
  · refine (opened.before.congr (fun _ _ _ => rfl) fun x _ high => ?_).append
      ⟨rfl, update_self _ _ _, large, opened.aligned, fun _ => ?_, trivial,
        opened.after.update_start (.inr backUsed)⟩
    · exact update_of_ne (by omega) _ _
    · show update segment.prevSize _ _ hole = 0
      rw [update_of_ne (by omega), frontUsed]
  · show update segment.prevSize _ _ layout.start = 0
    rw [update_of_ne (by omega), opened.first]
  · show update (update segment.fnext hole _) layout.header hole layout.last = 0
    rw [update_of_ne (by omega), update_of_ne (by omega), opened.sentinel.2]
  · obtain ⟨second, rest, tailIs⟩ : ∃ second rest, list ++ [layout.last] = second :: rest := by
      cases list with
      | nil => exact ⟨_, _, rfl⟩
      | cons block list => exact ⟨_, _, rfl⟩
    have linked := opened.linked
    rw [tailIs] at linked
    have next : segment.fnext layout.header = second := (List.isChain_cons_cons.mp linked).1.1
    have nodup' : (layout.header :: hole :: (list ++ [layout.last])).Nodup := by
      refine @chain_nodup layout (hole :: list) (List.nodup_cons.mpr ⟨fresh, ?_⟩)
        fun block mem => ?_
      · exact (List.nodup_append.mp (List.nodup_cons.mp nodup).2).1
      · rcases List.mem_cons.mp mem with rfl | later
        · omega
        · exact (opened.inside block later).1
    rw [tailIs] at nodup'
    rw [List.cons_append, tailIs]
    show Linked (update (update segment.fnext hole _) layout.header hole)
      (update (update segment.fprev hole layout.header) _ hole) _
    rw [next]
    exact @Linked.insert _ _ _ [] _ _ _ _ _ linked (.of_nodup nodup')
  · rw [freeBlocks_append opened.before]
    exact (opened.same.cons hole).trans List.perm_middle.symm
  · intro block mem
    rw [usedBlocks_append opened.before] at mem
    show update (update segment.fnext hole _) layout.header hole block.1 = 0
    have outside : block.1 ≠ layout.header ∧ block.1 ≠ hole := by
      rcases List.mem_append.mp mem with left | right
      · have inFront := opened.before.used_bounds left
        omega
      · have inBack := opened.after.used_bounds right
        omega
    rw [update_of_ne outside.1, update_of_ne outside.2]
    exact opened.marked block mem
  · have avail := opened.avail
    rw [freeTotal_append]
    show segment.avail = _
    simp only [freeTotal, map_cons, sum_cons, Tile.freeSize] at avail ⊢
    omega

theorem smaDeallocate_of_joined {joined after : Segment} {hole' : Nat}
    (previous : joinPrevious { segment with avail := segment.avail + segment.size hole } hole =
      (joined, hole'))
    (next : joinNext joined hole' = some after) :
    smaDeallocate layout segment (hole + blockSize) = some (insertBlock layout after hole') := by
  unfold smaDeallocate
  rw [Nat.add_sub_cancel]
  simp only
  rw [previous]
  simp only [next, Option.map_some]

theorem Intact.smaDeallocate (intact : Intact layout segment tiles list) {requested : Nat}
    (isUsed : (hole, requested) ∈ usedBlocks layout.start tiles) : ∃ segment' tiles' list',
      smaDeallocate layout segment (hole + blockSize) = some segment' ∧
      Intact layout segment' tiles' list' ∧ (usedBlocks layout.start tiles).Perm
        ((hole, requested) :: usedBlocks layout.start tiles') := by
  obtain ⟨front, back, opened, used⟩ := intact.opened isUsed
  obtain ⟨front', hole', listAfter, joined, opened, frontUsed, usedFront, stop⟩ :=
    opened.joinPrevious
  obtain ⟨segment', back', list', joinedNext, opened, samePrev, backUsed, usedBack⟩ :=
    opened.joinNext
  refine ⟨_, _, _, ?_, opened.insertBlock (by rw [samePrev]; exact frontUsed) backUsed, ?_⟩
  · exact smaDeallocate_of_joined joined joinedNext
  · rw [usedBlocks_append opened.before]
    simp only [usedBlocks, usedFront, usedBack, stop]
    exact used

end PhpExts.Apcu.Sma
