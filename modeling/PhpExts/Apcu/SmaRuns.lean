import PhpExts.Apcu.SmaDeallocate
import Mathlib

/-!
# Runs of the allocator

A run is a list of calls, from the segment that `apc_sma_api_init` leaves.  What has
been given out and not taken back is `live`: the offset of the memory, and how many
bytes were asked for.

In every run whose allocations are `Sensible` the segment stays as it should be,
`sma_deallocate` never fails its assertion, and giving everything back, in any order,
leads back to the one free block of the beginning.
-/

namespace PhpExts.Apcu.Sma

open Function (update_of_ne update_self)

structure System where
  segment : Segment
  live : List (Nat × Nat)

inductive Call where
  | allocate (size fragment : Nat)
  | deallocate (offset : Nat)

namespace System

variable (layout : Layout)

/-- One call; `none` is a failed assertion. -/
def step (system : System) : Call → Option System
  | .allocate size fragment =>
    let result := smaAllocate layout system.segment size fragment
    some ⟨result.1, (result.2.map fun offset => (offset, size)).toList ++ system.live⟩
  | .deallocate offset =>
    (smaDeallocate layout system.segment offset).map fun segment =>
      ⟨segment, system.live.filter (·.1 ≠ offset)⟩

/-- The calls of a run, one after the other. -/
def run (system : System) (calls : List Call) : Option System :=
  calls.foldlM (step layout) system

def Permitted (system : System) : Call → Prop
  | .allocate _ _ => True
  | .deallocate offset => offset ∈ system.live.map Prod.fst

instance (system : System) (call : Call) : Decidable (system.Permitted call) :=
  match call with
  | .allocate _ _ => .isTrue trivial
  | .deallocate offset => inferInstanceAs (Decidable (offset ∈ system.live.map Prod.fst))

def SensibleCall (system : System) : Call → Prop
  | .allocate size fragment => Sensible layout system.segment size fragment
  | .deallocate _ => True

def EachCall (holds : System → Call → Prop) (system : System) : List Call → Prop
  | [] => True
  | call :: calls => holds system call ∧
      match system.step layout call with
      | some system' => EachCall holds system' calls
      | none => True

instance EachCall.decidable (holds : System → Call → Prop)
    [∀ system call, Decidable (holds system call)] (system : System) (calls : List Call) :
    Decidable (EachCall layout holds system calls) :=
  match calls with
  | [] => .isTrue trivial
  | call :: calls =>
    have : Decidable (match system.step layout call with
        | some system' => EachCall layout holds system' calls
        | none => True) :=
      match system.step layout call with
      | some system' => EachCall.decidable holds system' calls
      | none => .isTrue trivial
    inferInstanceAs (Decidable (_ ∧ _))

theorem EachCall.of_all {holds : System → Call → Prop} {calls : List Call}
    (all : ∀ call ∈ calls, ∀ system, holds system call) (system : System) :
    EachCall layout holds system calls := by
  induction calls generalizing system with
  | nil => trivial
  | cons call calls ih =>
    refine ⟨all call (.head _) system, ?_⟩
    cases system.step layout call with
    | none => trivial
    | some system' => exact ih (fun call mem => all call (.tail _ mem)) _

end System

/-! ## What holds in every run -/

def Fresh (layout : Layout) (segment : Segment) : Prop :=
  Intact layout segment [.free (layout.last - layout.start)] [layout.start]

/-- The memory behind the header of a block, with what was asked for. -/
def payload (block : Nat × Nat) : Nat × Nat := (block.1 + blockSize, block.2)

/-- The segment is intact, and its used blocks are the live ones. -/
structure Kept (layout : Layout) (system : System) (tiles : List Tile) (list : List Nat) :
    Prop where
  intact : Intact layout system.segment tiles list
  used : ((usedBlocks layout.start tiles).map payload).Perm system.live

/-- What holds of the live blocks: they are apart from each other, with room for a header
between them, aligned, inside the segment, and as large as was asked for. -/
structure LiveBlocks (layout : Layout) (system : System) : Prop where
  apart : system.live.Pairwise fun a b =>
    a.1 + a.2 + blockSize ≤ b.1 ∨ b.1 + b.2 + blockSize ≤ a.1
  aligned : ∀ block ∈ system.live, block.1 % 8 = 0
  inside : ∀ block ∈ system.live,
    layout.start + blockSize ≤ block.1 ∧ block.1 + block.2 ≤ layout.last
  fits : ∀ block ∈ system.live, block.2 + blockSize ≤ system.segment.size (block.1 - blockSize)

section

variable {size prevSize : Nat → Nat} {start stop : Nat} {tiles : List Tile}

theorem Tiled.usedBlocks_sorted (tiled : Tiled size prevSize start tiles stop) :
    (usedBlocks start tiles).Pairwise fun a b => a.1 + blockSize + a.2 ≤ b.1 := by
  induction tiles generalizing start with
  | nil => exact .nil
  | cons tile tiles ih =>
    obtain ⟨-, -, -, -, -, fits, rest⟩ := tiled
    cases tile with
    | free n => exact ih rest
    | used n requested =>
      refine List.pairwise_cons.mpr ⟨fun block mem => ?_, ih rest⟩
      have bounds := rest.used_bounds mem
      simp only [Tile.size, Tile.Fits] at bounds fits ⊢
      omega

theorem Tiled.usedBlocks_nodup (tiled : Tiled size prevSize start tiles stop) :
    ((usedBlocks start tiles).map Prod.fst).Nodup := by
  refine List.pairwise_map.mpr (tiled.usedBlocks_sorted.imp fun {a b} apart => ?_)
  have positive : 0 < blockSize := Nat.succ_pos _
  omega

theorem Tiled.eq_single (tiled : Tiled size prevSize start tiles stop) (room : start < stop)
    (unused : usedBlocks start tiles = []) : tiles = [.free (stop - start)] := by
  cases tiles with
  | nil => exact absurd (show start = stop from tiled) room.ne
  | cons tile tiles =>
    obtain ⟨-, prev, large, -, -, -, rest⟩ := tiled
    have positive : 0 < blockSize := Nat.succ_pos _
    cases tile with
    | used n requested => cases unused
    | free n =>
      cases tiles with
      | nil =>
        have here : start + n = stop := rest
        rw [← here, Nat.add_sub_cancel_left]
      | cons tile tiles =>
        cases tile with
        | used n requested => cases unused
        | free m =>
          have apart := rest.2.2.2.2.1 rfl
          simp only [Tile.size, Tile.freeSize] at prev large apart
          omega

end

section

variable {layout : Layout} {system : System} {tiles : List Tile} {list : List Nat}

theorem fresh_init (layout : Layout) (memory : Segment) : Fresh layout (layout.init memory) := by
  have order := layout.order
  have positive : 0 < blockSize := Nat.succ_pos _
  have whole : layout.segsize - layout.header - blockSize - blockSize - blockSize =
      layout.last - layout.start := by
    simp only [Layout.last, Layout.start]
    omega
  have stop : layout.start + (layout.last - layout.start) = layout.last := by omega
  have headerStart : layout.header ≠ layout.start := by omega
  have headerLast : layout.header ≠ layout.last := by omega
  have startLast : layout.start ≠ layout.last := by omega
  refine ⟨⟨?_, ?_, ?_, ?_, fun _ => ?_, trivial, stop⟩, ?_, ⟨?_, ?_⟩, ?_, .refl _,
    by rintro _ ⟨⟩, ?_⟩
  · simp only [Layout.init, Tile.size, update_self, update_of_ne startLast, whole]
  · simp only [Layout.init, Tile.size, Tile.freeSize, stop, update_self, whole]
  · simp only [Tile.size]
    omega
  · have aligned := layout.aligned
    simp only [Layout.start, blockSize]
    omega
  · simp only [Layout.init, update_self, update_of_ne startLast]
  · simp only [Layout.init, update_self, update_of_ne startLast]
  · exact update_self _ _ _
  · exact update_self _ _ _
  · refine List.isChain_cons_cons.mpr ⟨⟨?_, ?_⟩, List.isChain_cons_cons.mpr
      ⟨⟨?_, ?_⟩, .singleton _⟩⟩
    · simp only [Layout.init, update_self, update_of_ne headerStart,
        update_of_ne headerLast]
    · simp only [Layout.init, update_self, update_of_ne startLast]
    · simp only [Layout.init, update_self, update_of_ne startLast]
    · exact update_self _ _ _
  · simp only [Layout.init, freeTotal, List.map_cons, List.map_nil, List.sum_cons, List.sum_nil,
      Tile.freeSize]
    omega

theorem Kept.nodup (kept : Kept layout system tiles list) : (system.live.map Prod.fst).Nodup := by
  have shifted : ((usedBlocks layout.start tiles).map payload).map Prod.fst =
      ((usedBlocks layout.start tiles).map Prod.fst).map (· + blockSize) := by
    rw [List.map_map, List.map_map]
    rfl
  refine (kept.used.map Prod.fst).nodup_iff.mp ?_
  rw [shifted]
  exact kept.intact.tiled.usedBlocks_nodup.map fun _ _ => Nat.add_right_cancel

theorem Kept.liveBlocks (kept : Kept layout system tiles list) : LiveBlocks layout system := by
  have tiled := kept.intact.tiled
  have place : ∀ block ∈ system.live, ∃ start, block.1 = start + blockSize ∧
      (start, block.2) ∈ usedBlocks layout.start tiles := by
    intro block mem
    obtain ⟨used, isUsed, rfl⟩ := List.mem_map.mp (kept.used.mem_iff.mpr mem)
    exact ⟨used.1, rfl, isUsed⟩
  refine ⟨?_, fun block mem => ?_, fun block mem => ?_, fun block mem => ?_⟩
  · refine (List.Perm.pairwise_iff (fun {a b} apart => apart.symm) kept.used).mp
      (List.pairwise_map.mpr (tiled.usedBlocks_sorted.imp fun {a b} sorted => .inl ?_))
    simp only [payload]
    omega
  · obtain ⟨start, here, isUsed⟩ := place block mem
    have bounds := tiled.used_bounds isUsed
    simp only [here, blockSize] at bounds ⊢
    omega
  · obtain ⟨start, here, isUsed⟩ := place block mem
    have bounds := tiled.used_bounds isUsed
    simp only [here] at bounds ⊢
    omega
  · obtain ⟨start, here, isUsed⟩ := place block mem
    obtain ⟨front, back, -, -, -, -, -, -, -, fits, -⟩ := tiled.exists_of_used isUsed
    rw [here, Nat.add_sub_cancel]
    exact fits

theorem Kept.step (kept : Kept layout system tiles list) {call : Call}
    (permitted : system.Permitted call) (sensible : system.SensibleCall layout call) :
    ∃ system' tiles' list', system.step layout call = some system' ∧
      Kept layout system' tiles' list' := by
  cases call with
  | allocate size fragment =>
    rcases kept.intact.smaAllocate sensible with failed | given
    · refine ⟨system, tiles, list, ?_, kept⟩
      rw [System.step, failed]
      rfl
    · obtain ⟨segment', tiles', list', cur, result, intact, used⟩ := given
      refine ⟨⟨segment', (cur + blockSize, size) :: system.live⟩, tiles', list', ?_, intact,
        (used.map payload).trans (kept.used.cons _)⟩
      rw [System.step, result]
      rfl
  | deallocate offset =>
    obtain ⟨block, isLive, rfl⟩ := List.mem_map.mp permitted
    obtain ⟨⟨hole, requested⟩, isUsed, rfl⟩ := List.mem_map.mp (kept.used.mem_iff.mpr isLive)
    obtain ⟨segment', tiles', list', result, intact, used⟩ := kept.intact.smaDeallocate isUsed
    refine ⟨⟨segment', system.live.filter (·.1 ≠ hole + blockSize)⟩, tiles', list',
      ?_, intact, ?_⟩
    · show Option.map _ (smaDeallocate layout system.segment (hole + blockSize)) = _
      rw [result]
      rfl
    · have others : ∀ block ∈ (usedBlocks layout.start tiles').map payload,
          decide (block.1 ≠ hole + blockSize) = true := by
        intro block mem
        obtain ⟨old, isOld, rfl⟩ := List.mem_map.mp mem
        have nodup := (used.map Prod.fst).nodup_iff.mp kept.intact.tiled.usedBlocks_nodup
        have apart := fun eq => (List.nodup_cons.mp nodup).1
          (List.mem_map.mpr ⟨old, isOld, eq⟩)
        simpa [payload] using apart
      have all := ((used.map payload).symm.trans kept.used).filter
        fun block => decide (block.1 ≠ hole + blockSize)
      rwa [List.map_cons, List.filter_cons_of_neg (by simp [payload]),
        List.filter_eq_self.mpr others] at all

theorem Kept.run {calls : List Call} (kept : Kept layout system tiles list)
    (permitted : system.EachCall layout System.Permitted calls)
    (sensible : system.EachCall layout (System.SensibleCall layout) calls) :
    ∃ system' tiles' list', system.run layout calls = some system' ∧
      Kept layout system' tiles' list' := by
  induction calls generalizing system tiles list with
  | nil => exact ⟨system, tiles, list, rfl, kept⟩
  | cons call calls ih =>
    obtain ⟨permittedCall, permittedRest⟩ := permitted
    obtain ⟨sensibleCall, sensibleRest⟩ := sensible
    obtain ⟨system', tiles', list', next, kept'⟩ := kept.step permittedCall sensibleCall
    simp only [next] at permittedRest sensibleRest
    obtain ⟨last, lastTiles, lastList, result, keptLast⟩ := ih kept' permittedRest sensibleRest
    refine ⟨last, lastTiles, lastList, ?_, keptLast⟩
    rw [System.run, List.foldlM_cons, next]
    exact result

theorem Kept.clear (kept : Kept layout system tiles list) (offsets : List Nat)
    (all : offsets.Perm (system.live.map Prod.fst)) :
    ∃ cleared, system.run layout (offsets.map .deallocate) = some cleared ∧ cleared.live = [] ∧
      Fresh layout cleared.segment := by
  induction offsets generalizing system tiles list with
  | nil =>
    have unused : system.live = [] := List.map_eq_nil_iff.mp all.symm.eq_nil
    have order := layout.order
    have positive : 0 < blockSize := Nat.succ_pos _
    have used := kept.used
    rw [unused] at used
    have intact := kept.intact
    rw [intact.tiled.eq_single (by omega) (List.map_eq_nil_iff.mp used.eq_nil)] at intact
    rw [List.perm_singleton.mp intact.same] at intact
    exact ⟨system, rfl, unused, intact⟩
  | cons offset offsets ih =>
    obtain ⟨block, isLive, rfl⟩ := List.mem_map.mp (all.mem_iff.mp (.head _))
    obtain ⟨system', tiles', list', next, kept'⟩ :=
      @Kept.step _ _ _ _ kept (.deallocate block.1)
        (List.mem_map_of_mem isLive) trivial
    have left : system'.live = system.live.filter (·.1 ≠ block.1) := by
      obtain ⟨segment', -, rfl⟩ := Option.map_eq_some_iff.mp next
      rfl
    have nodup := List.nodup_cons.mp (all.nodup_iff.mpr kept.nodup)
    have others : ∀ offset ∈ offsets, decide (offset ≠ block.1) = true := fun offset mem =>
      decide_eq_true fun same => nodup.1 (same ▸ mem)
    have rest := all.filter fun offset => decide (offset ≠ block.1)
    rw [List.filter_cons_of_neg (by simp), List.filter_eq_self.mpr others, List.filter_map] at rest
    obtain ⟨cleared, result, empty, fresh⟩ := ih kept' (by rw [left]; exact rest)
    refine ⟨cleared, ?_, empty, fresh⟩
    rw [System.run, List.map_cons, List.foldlM_cons, next]
    exact result

/-- What is promised of a run: it comes to its end, the segment is intact, and giving back
all that is live, in any order, leads back to the beginning. -/
def Integrity (layout : Layout) (memory : Segment) (calls : List Call) : Prop :=
  ∃ system tiles list, System.run layout ⟨layout.init memory, []⟩ calls = some system ∧
    Kept layout system tiles list ∧ LiveBlocks layout system ∧
    ∀ offsets : List Nat, offsets.Perm (system.live.map Prod.fst) →
      ∃ cleared, system.run layout (offsets.map .deallocate) = some cleared ∧
        cleared.live = [] ∧ Fresh layout cleared.segment

/-- **The allocator keeps its segment intact in every run of sensible calls.** -/
theorem integrity_of_sensible (layout : Layout) (memory : Segment) (calls : List Call)
    (permitted : System.EachCall layout System.Permitted ⟨layout.init memory, []⟩ calls)
    (sensible : System.EachCall layout (System.SensibleCall layout) ⟨layout.init memory, []⟩ calls) :
    Integrity layout memory calls := by
  have kept : Kept layout ⟨layout.init memory, []⟩ _ _ := ⟨fresh_init layout memory, .nil⟩
  obtain ⟨system, tiles, list, result, kept⟩ := kept.run permitted sensible
  exact ⟨system, tiles, list, result, kept, kept.liveBlocks, kept.clear⟩

end

/-! ## Which requests are sensible -/

theorem large_of_findFit {segment : Segment} {realsize fuel prv found : Nat}
    (isFound : findFit segment realsize fuel prv = some found) :
    realsize ≤ segment.size (segment.fnext found) := by
  induction fuel generalizing prv with
  | zero => cases isFound
  | succ fuel ih =>
    simp only [findFit] at isFound
    split at isFound
    · cases isFound
    · split at isFound
      · rename_i large
        cases isFound
        exact large
      · exact ih isFound

theorem sensible_of_small {layout : Layout} {segment : Segment} {size fragment : Nat}
    (small : size + fragment + 79 < 2 ^ 64) : Sensible layout segment size fragment := by
  intro prv _ found
  have large := large_of_findFit found
  have sizeSmall : size + 39 < 2 ^ 64 := by omega
  refine ⟨sizeSmall, ?_⟩
  by_cases whole : tooSmallToSplit (segment.size (segment.fnext prv)) (realSize size) fragment = true
  · exact .inl whole
  · right
    have real : realSize size ≤ size + 39 := by
      simp only [realSize, alignWord, add64, blockSize]
      omega
    have split := of_decide_eq_false (Bool.eq_false_iff.mpr whole)
    simp only [add64, minBlockSize, blockSize] at split ⊢
    omega

theorem integrity_megabyte :
    Integrity megabyte zeros [.allocate 100 0, .allocate 50 64, .deallocate 136] := by
  refine integrity_of_sensible _ _ _ (by decide +kernel)
    (System.EachCall.of_all _ (fun call member system => ?_) _)
  rcases List.mem_cons.mp member with rfl | member
  · exact sensible_of_small (by decide)
  · rcases List.mem_cons.mp member with rfl | member
    · exact sensible_of_small (by decide)
    · obtain rfl := List.mem_singleton.mp member
      trivial

/-- With `size + 32` wrapped around, 32 bytes are taken for `2 ^ 64 - 1`. -/
theorem not_integrity_wrapped : System.EachCall megabyte System.Permitted ⟨megabyte.init zeros, []⟩
        [.allocate (2 ^ 64 - 1) 0] ∧ ¬ Integrity megabyte zeros [.allocate (2 ^ 64 - 1) 0] := by
  refine ⟨by decide +kernel, ?_⟩
  rintro ⟨system, -, -, result, -, liveBlocks, -⟩
  have live : (System.run megabyte ⟨megabyte.init zeros, []⟩ [.allocate (2 ^ 64 - 1) 0]).map
      System.live = some [(136, 2 ^ 64 - 1)] := by decide +kernel
  rw [result] at live
  have isLive : (136, 2 ^ 64 - 1) ∈ system.live := by
    rw [Option.some.inj live]
    exact List.mem_singleton_self _
  exact absurd (liveBlocks.inside _ isLive).2 (by decide)

end PhpExts.Apcu.Sma
