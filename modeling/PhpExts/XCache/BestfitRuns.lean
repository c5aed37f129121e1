import PhpExts.XCache.BestfitCalls
import Mathlib

/-!
# Runs of a best-fit allocator

Every run of permitted and sensible calls keeps the memory intact: `Kept` adds to this that the
used blocks are those that have been given out.
-/

namespace PhpExts.XCache.Bestfit

/-- The memory that is given out of a used block. -/
def payload (block : Nat × Nat) : Nat × Nat := (block.1 + headerSize, block.2)

/-- An intact memory whose used blocks are the live ones. -/
structure Kept (system : System) (tiles : List Tile) : Prop where
  intact : Intact system.allocator tiles
  used : ((usedBlocks system.allocator.start tiles).map payload).Perm system.live

/-- What is given out is apart from each other, lies in the memory, is aligned as the allocator
is and has the room that was asked for. -/
structure LiveBlocks (system : System) : Prop where
  apart : system.live.Pairwise fun a b => a.1 + a.2 ≤ b.1 ∨ b.1 + b.2 ≤ a.1
  inside : ∀ block ∈ system.live, system.allocator.start + headerSize ≤ block.1 ∧
    block.1 + block.2 ≤ system.allocator.stop
  aligned : ∀ block ∈ system.live, block.1 % 8 = system.allocator.base % 8
  room : ∀ block ∈ system.live,
    block.2 + headerSize ≤ system.allocator.memory (block.1 - headerSize)

def Answers (allocator : Allocator) (tiles : List Tile) : Prop :=
  ∀ size, size + 15 < 2 ^ 64 → ∃ p allocator', malloc allocator size = some (p, allocator') ∧
    (p = none ↔ ∀ other, .free other ∈ tiles → ¬ Suits (realSize size) other) ∧
    ∀ q, p = some q → ∃ block ∈ freeBlocks allocator.start tiles,
      q = block.1 + headerSize ∧ BestFit (realSize size) block.2 tiles

structure Sound (system : System) (tiles : List Tile) : Prop where
  kept : Kept system tiles
  sorted : (freeBlocks system.allocator.start tiles).Pairwise fun a b => a.1 < b.1
  liveBlocks : LiveBlocks system
  answers : Answers system.allocator tiles
  cleared : system.live = [] → tiles = [.free (system.allocator.size - minSize)]

section

variable {system : System} {tiles : List Tile} {memory : Nat → Nat} {residue prev start stop : Nat}

theorem Tiled.usedBlocks_spec (tiled : Tiled memory residue prev start tiles stop) :
    (usedBlocks start tiles).Pairwise (fun a b => a.1 + headerSize + a.2 ≤ b.1) ∧
      ∀ block ∈ usedBlocks start tiles, start ≤ block.1 ∧
        block.1 + headerSize + block.2 ≤ stop ∧ block.1 % 8 = residue ∧
        block.2 + headerSize ≤ memory block.1 := by
  induction tiles generalizing prev start with
  | nil => exact ⟨.nil, nofun⟩
  | cons tile tiles ih =>
    cases tile with
    | free size =>
      obtain ⟨order, blocks⟩ := ih tiled.2.2
      refine ⟨order, fun block mem => ?_⟩
      obtain ⟨low, rest⟩ := blocks block mem
      exact ⟨(Nat.le_add_right _ _).trans low, rest⟩
    | used size requested =>
      obtain ⟨⟨isSize, aligned, -, -⟩, fits, rest⟩ := tiled
      obtain ⟨order, blocks⟩ := ih rest
      have ends := rest.le_stop
      refine ⟨List.pairwise_cons.mpr ⟨fun block mem => ?_, order⟩, fun block mem => ?_⟩
      · have low := (blocks block mem).1
        simp only
        omega
      · rcases List.mem_cons.mp mem with rfl | later
        · refine ⟨le_rfl, ?_, aligned, by rw [isSize]; exact fits⟩
          simp only
          omega
        · obtain ⟨low, others⟩ := blocks block later
          exact ⟨(Nat.le_add_right _ _).trans low, others⟩

namespace Kept

theorem liveBlocks (kept : Kept system tiles) : LiveBlocks system := by
  obtain ⟨order, blocks⟩ := kept.intact.tiled.usedBlocks_spec
  have place : ∀ block ∈ system.live, ∃ start, block.1 = start + headerSize ∧
      (start, block.2) ∈ usedBlocks system.allocator.start tiles := by
    intro block mem
    obtain ⟨used, isUsed, rfl⟩ := List.mem_map.mp (kept.used.mem_iff.mpr mem)
    exact ⟨used.1, rfl, isUsed⟩
  refine ⟨?_, fun block mem => ?_, fun block mem => ?_, fun block mem => ?_⟩
  · refine (List.Perm.pairwise_iff (fun {a b} apart => apart.symm) kept.used).mp
      (List.pairwise_map.mpr (order.imp fun {a b} sorted => .inl ?_))
    simp only [payload]
    omega
  · obtain ⟨start, here, isUsed⟩ := place block mem
    have bounds := blocks _ isUsed
    simp only at bounds
    omega
  · obtain ⟨start, here, isUsed⟩ := place block mem
    have bounds := blocks _ isUsed
    simp only [headerSize] at here bounds
    omega
  · obtain ⟨start, here, isUsed⟩ := place block mem
    rw [here, Nat.add_sub_cancel]
    exact (blocks _ isUsed).2.2.2

theorem nodup (kept : Kept system tiles) :
    ((usedBlocks system.allocator.start tiles).map Prod.fst).Nodup := by
  refine List.pairwise_map.mpr (kept.intact.tiled.usedBlocks_spec.1.imp fun {a b} sorted => ?_)
  simp only [headerSize] at sorted
  omega

theorem answers (kept : Kept system tiles) : Answers system.allocator tiles := by
  intro size small
  rcases kept.intact.malloc small with ⟨result, others⟩ | taken
  · exact ⟨none, _, result, ⟨fun _ => others, fun _ => rfl⟩, nofun⟩
  · obtain ⟨front, n, back, -, allocator', rfl, best, result, -⟩ := taken
    refine ⟨_, _, result, ⟨nofun, fun others => ?_⟩, ?_⟩
    · exact absurd best.1 (others n (by simp))
    · rintro q ⟨⟩
      refine ⟨(system.allocator.start + bytes front, n), ?_, rfl, best⟩
      rw [freeBlocks_append]
      exact List.mem_append_right _ (.head _)

theorem cleared (kept : Kept system tiles) (unused : system.live = []) :
    tiles = [.free (system.allocator.size - minSize)] := by
  have none : usedBlocks system.allocator.start tiles = [] := by
    have used := kept.used
    rw [unused] at used
    exact List.map_eq_nil_iff.mp used.eq_nil
  have total := kept.intact.tiled.le_stop
  have room := kept.intact.room
  have apart := kept.intact.apart
  cases tiles with
  | nil => exact absurd rfl kept.intact.nonempty
  | cons tile tiles =>
    cases tile with
    | used size requested => cases none
    | free size =>
      cases tiles with
      | nil =>
        simp only [bytes_cons, bytes_nil, Tile.size, Allocator.start, Allocator.stop,
          minSize, blockStruct] at total room ⊢
        have whole : size = system.allocator.size - (48 + 16) := by omega
        rw [whole]
      | cons tile tiles =>
        cases tile with
        | used size' requested => cases none
        | free size' => exact absurd ⟨rfl, rfl⟩ (List.isChain_cons_cons.mp apart).1

theorem sound (kept : Kept system tiles) : Sound system tiles :=
  ⟨kept, kept.intact.tiled.sorted.1, kept.liveBlocks, kept.answers, kept.cleared⟩

theorem fill (kept : Kept system tiles) {block : Nat × Nat} (isLive : block ∈ system.live)
    (same : ∀ address, address < block.1 ∨ block.1 + block.2 ≤ address →
      memory address = system.allocator.memory address) :
    Kept ⟨{ system.allocator with memory }, system.live⟩ tiles := by
  obtain ⟨⟨start, requested⟩, isUsed, rfl⟩ := List.mem_map.mp (kept.used.mem_iff.mpr isLive)
  obtain ⟨front, size, back, rfl, here⟩ := exists_of_mem_usedBlocks isUsed
  simp only [payload] at here same
  subst here
  have intact := kept.intact
  obtain ⟨tiled, head⟩ := intact.graft (List.cons_ne_nil _ _) (fun other before _ =>
    same other (by omega)) (intact.tiled.rest.fill same)
  exact ⟨⟨tiled, head, intact.apart, intact.nonempty, intact.positive, intact.avail, intact.room,
    intact.inside⟩, kept.used⟩

theorem step (kept : Kept system tiles) {call : Call} (permitted : system.Permitted call)
    (sensible : system.Sensible call) :
    ∃ system' tiles', system.step call = some system' ∧ Kept system' tiles' := by
  cases call with
  | malloc size =>
    rcases kept.intact.malloc permitted with ⟨result, -⟩ | given
    · refine ⟨system, tiles, ?_, kept⟩
      simp only [System.step, result]
      rfl
    · obtain ⟨front, n, back, taken, allocator', rfl, -, result, intact, blocks, total, base,
        -⟩ := given
      have same : allocator'.start = system.allocator.start := by
        rw [Allocator.start, base, Allocator.start]
      refine ⟨⟨allocator', (system.allocator.start + bytes front + headerSize, size) ::
        system.live⟩, _, ?_, intact, ?_⟩
      · simp only [System.step, result]
        rfl
      · have used := kept.used
        rw [usedBlocks_append, usedBlocks, List.map_append] at used
        rw [same, List.append_assoc, usedBlocks_append, usedBlocks_append, blocks, total,
          List.map_append, List.map_append]
        exact List.perm_middle.trans (used.cons _)
  | free p =>
    obtain ⟨block, isLive, rfl⟩ := List.mem_map.mp permitted
    obtain ⟨⟨start, requested⟩, isUsed, rfl⟩ := List.mem_map.mp (kept.used.mem_iff.mpr isLive)
    obtain ⟨front, size, back, rfl, here⟩ := exists_of_mem_usedBlocks isUsed
    simp only at here
    subst here
    have isSize : system.allocator.memory (system.allocator.start + bytes front) = size :=
      kept.intact.tiled.rest.1.1
    obtain ⟨small, room⟩ := sensible
    simp only [payload, Nat.add_sub_cancel, isSize] at small room
    obtain ⟨returned, allocator', tiles', result, intact, blocks, base, -⟩ :=
      kept.intact.free small room
    have same : allocator'.start = system.allocator.start := by
      rw [Allocator.start, base, Allocator.start]
    refine ⟨⟨allocator', system.live.filter fun block =>
      block.1 ≠ system.allocator.start + bytes front + headerSize⟩, tiles', ?_, intact, ?_⟩
    · simp only [System.step, payload, result]
      rfl
    · have nodup := kept.nodup
      have used := kept.used
      rw [usedBlocks_append, usedBlocks] at nodup used
      obtain ⟨apart, -⟩ := List.nodup_cons.mp
        ((List.perm_middle.map Prod.fst).nodup_iff.mp nodup)
      have others : ∀ block ∈ (usedBlocks system.allocator.start front ++
          usedBlocks (system.allocator.start + bytes front + size) back).map payload,
          decide (block.1 ≠ system.allocator.start + bytes front + headerSize) = true := by
        intro block mem
        obtain ⟨old, isOld, rfl⟩ := List.mem_map.mp mem
        refine decide_eq_true fun eq => apart (List.mem_map.mpr ⟨old, isOld, ?_⟩)
        exact Nat.add_right_cancel eq
      have all := ((List.perm_middle.symm.map payload).trans used).filter fun block =>
        decide (block.1 ≠ system.allocator.start + bytes front + headerSize)
      rw [same, blocks]
      rwa [List.map_cons, List.filter_cons_of_neg (by simp [payload]),
        List.filter_eq_self.mpr others] at all
  | write address value =>
    obtain ⟨-, block, isLive, low, high⟩ := permitted
    exact ⟨_, _, rfl, kept.fill isLive fun other away =>
      Function.update_of_ne (by omega) _ _⟩

end Kept

end

section

variable {base size : Nat} {memory : Nat → Nat} {allocator : Allocator}

theorem kept_init (inside : base + size ≤ 2 ^ 64)
    (isInit : init base size memory = some allocator) :
    Kept ⟨allocator, []⟩ [.free (size - minSize)] := by
  unfold init at isInit
  split at isInit
  · cases isInit
  rename_i room
  cases isInit
  simp only [minSize, blockStruct, Nat.not_lt] at room
  refine ⟨⟨⟨⟨?_, ?_, le_rfl, ?_⟩, ?_, ?_, ?_⟩, ?_, .singleton _, by simp,
    fun some tile mem => ?_, rfl, room, inside⟩, .nil⟩
  · simp [blockSetup, setNext, setSize, Allocator.start]
  · simp only [Allocator.start]
    omega
  · simp [blockSetup, setNext, setSize, Allocator.start, Allocator.headblock]
  · simp [blockSetup, setNext, setSize, Allocator.start, Allocator.headblock, next]
  · simp only [Allocator.start, Allocator.stop, minSize, blockStruct]
    omega
  · simp [blockSetup, setNext, setSize, Allocator.start, next]
  · simp [blockSetup, setNext, setSize, Allocator.headblock]
  · obtain rfl := List.mem_singleton.mp mem
    simp only [Allocator.start, Allocator.stop, Tile.size, minSize, blockStruct] at some ⊢
    omega

theorem Kept.run {system : System} {tiles : List Tile} {calls : List Call}
    (kept : Kept system tiles) (permitted : system.EachCall System.Permitted calls)
    (sensible : system.EachCall System.Sensible calls) :
    ∃ last tiles', system.run calls = some last ∧ Kept last tiles' := by
  induction calls generalizing system tiles with
  | nil => exact ⟨system, tiles, rfl, kept⟩
  | cons call calls ih =>
    obtain ⟨permittedCall, permittedRest⟩ := permitted
    obtain ⟨sensibleCall, sensibleRest⟩ := sensible
    obtain ⟨system', tiles', next, kept'⟩ := kept.step permittedCall sensibleCall
    simp only [next] at permittedRest sensibleRest
    obtain ⟨last, lastTiles, result, keptLast⟩ := ih kept' permittedRest sensibleRest
    refine ⟨last, lastTiles, ?_, keptLast⟩
    rw [System.run, List.foldlM_cons, next]
    exact result

def Integrity (system : System) (calls : List Call) : Prop :=
  ∃ last tiles, system.run calls = some last ∧ Sound last tiles

/-- **The allocator keeps its memory intact in every run of sensible calls.** -/
theorem integrity_of_sensible_calls {calls : List Call} (inside : base + size ≤ 2 ^ 64)
    (isInit : init base size memory = some allocator)
    (permitted : System.EachCall System.Permitted ⟨allocator, []⟩ calls)
    (sensible : System.EachCall System.Sensible ⟨allocator, []⟩ calls) :
    Integrity ⟨allocator, []⟩ calls := by
  obtain ⟨last, tiles, result, kept⟩ := (kept_init inside isInit).run permitted sensible
  exact ⟨last, tiles, result, kept.sound⟩

end

def zeros : Nat → Nat := fun _ => 0

def fresh (base size : Nat) : Allocator :=
  ⟨base, size, size - minSize, blockSetup (blockSetup zeros (base + 32) 0 (base + 48))
    (base + 48) (size - minSize) 0⟩

theorem integrity_joined :
    Integrity ⟨fresh 4096 1024, []⟩ [.malloc 100, .malloc 50, .malloc 200, .write 4264 7,
      .free 4152, .free 4328, .free 4264] :=
  @integrity_of_sensible_calls 4096 1024 zeros _ _ (by decide) rfl (by decide +kernel)
      (by decide +kernel)

/-- Two gigabytes are taken and freed: their size is not an `int`. -/
theorem not_integrity_large : System.EachCall System.Permitted ⟨fresh 4096 (2 ^ 32), []⟩
        [.malloc (2 ^ 31), .free 4152] ∧
      ¬ Integrity ⟨fresh 4096 (2 ^ 32), []⟩ [.malloc (2 ^ 31), .free 4152] := by
  refine ⟨by decide +kernel, ?_⟩
  rintro ⟨last, tiles, result, sound⟩
  have counted : (System.run ⟨fresh 4096 (2 ^ 32), []⟩ [.malloc (2 ^ 31), .free 4152]).map
      (fun system => (system.allocator.base, system.allocator.size, system.allocator.avail)) =
        some (4096, 2 ^ 32, 2 ^ 64 - 64) := by decide +kernel
  rw [result] at counted
  have avail := sound.kept.intact.avail_le
  have order := sound.kept.intact.order
  simp only [Option.map_some, Option.some.injEq, Prod.mk.injEq] at counted
  omega

end PhpExts.XCache.Bestfit
