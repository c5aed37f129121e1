import PhpExts.Apcu.WellFormed
import Mathlib

/-!
# What an expunge achieves

`apc_cache_default_expunge` is called where no block of a size has been found. It first decides
whether it is needed: not if as much is available as is suitable, the size times `smart`, or half a
segment where that is not set, whatever the size. So the size that was asked for need not be there
in the end (`not_expunge_serves`). Where it goes on, it ends with the room it wants, or with an
empty cache (`expunge_serves`).
-/

namespace PhpExts.Apcu

structure Segments (V : Type) where
  smart : Nat
  size : Nat
  avail : Cache V → List Nat

def getAvailMem (avail : List Nat) : Nat := avail.sum

def getAvailSize (avail : List Nat) (size : Nat) : Bool := avail.any (size < ·)

variable {V : Type} (config : Config V) (sma : Segments V)

/-- What has to be available for nothing to be done, a `size_t`. -/
def Segments.suitable (size : Nat) : Nat :=
  if 0 < sma.smart then sma.smart * size % 2 ^ 64 else sma.size / 2

/-- `apc_cache_default_expunge` for a size, with the answers of the allocator on the way. -/
def defaultExpunge (busy : Bool) (size : Nat) (t now : Int) (c : Cache V) : Cache V :=
  if busy then c
  else
    let collected := apcCacheGc config now c
    let swept := sweepAll config (outlived config t) now collected
    apcCacheDefaultExpunge config (getAvailMem (sma.avail collected) < sma.suitable size)
      (getAvailSize (sma.avail swept) size) t now c

def IsEmpty (c : Cache V) : Prop := ∀ i < config.nslots, c.slots i = []

variable {config sma} {t now : Int} {c : Cache V}

theorem isEmpty_apcCacheRealExpunge : IsEmpty config (apcCacheRealExpunge config now c) :=
  fun _ small => slots_sweepAll small

theorem mem_sweepAll {dead : Slot V → Bool} {i : Nat} {s : Slot V} (mem : s ∈ c.slots i)
    (alive : dead s = false) : s ∈ (sweepAll config dead now c).slots i := by
  have part : ∀ (indices : List Nat) (c : Cache V), s ∈ c.slots i →
      s ∈ (indices.foldl (sweepChain dead now) c).slots i := by
    intro indices
    induction indices with
    | nil => exact fun _ mem => mem
    | cons j rest ih =>
      intro c mem
      obtain ⟨kept, slots⟩ := sweep_eq dead now c (c.slots j)
      refine ih _ ?_
      rw [sweepChain, Cache.setChain]
      by_cases here : i = j
      · subst here
        rw [kept]
        simpa using ⟨mem, alive⟩
      · simpa [slots, here] using mem
  exact part _ c mem

theorem le_getAvailMem {avail : List Nat} {size : Nat} (room : getAvailSize avail size = true) :
    size ≤ getAvailMem avail := by
  obtain ⟨n, mem, less⟩ := List.any_eq_true.mp room
  exact Nat.le_trans (Nat.le_of_lt (of_decide_eq_true less))
    (List.single_le_sum (fun _ _ => Nat.zero_le _) n mem)

/-- An expunge that is not kept from it ends with what is suitable, or with the size in one of the
segments where the cache has a time to live and less was there, or with an empty cache. Its pass
over the chains removes only slots that have outlived their time. -/
theorem expunge_serves (config : Config V) (sma : Segments V) (size : Nat) (t now : Int)
    (c : Cache V) : let collected := apcCacheGc config now c
    let c' := defaultExpunge config sma false size t now c
    (config.ttl = 0 → sma.suitable size ≤ getAvailMem (sma.avail c') ∨ IsEmpty config c')
      ∧ (config.ttl ≠ 0 → getAvailMem (sma.avail collected) < sma.suitable size →
        size ≤ getAvailMem (sma.avail c') ∧ getAvailSize (sma.avail c') size = true
          ∨ IsEmpty config c')
      ∧ ∀ s ∈ linked config c,
        s ∉ linked config (sweepAll config (outlived config t) now collected) →
          outlived config t s = true := by
  intro collected c'
  refine ⟨fun noTtl => ?_, fun ttl short => ?_, fun s mem gone => ?_⟩
  · simp only [c', defaultExpunge, apcCacheDefaultExpunge, noTtl, if_true, Bool.false_eq_true,
      if_false, decide_eq_true_eq]
    split_ifs with short
    · exact .inr isEmpty_apcCacheRealExpunge
    · exact .inl (Nat.le_of_not_lt short)
  · simp only [c', defaultExpunge, apcCacheDefaultExpunge, Bool.false_eq_true, if_false,
      if_neg ttl, decide_eq_true_eq]
    rw [if_pos short]
    split_ifs with room
    · exact .inl ⟨le_getAvailMem room, room⟩
    · exact .inr isEmpty_apcCacheRealExpunge
  · obtain ⟨i, small, here⟩ := mem_linked.mp mem
    by_contra alive
    exact gone (mem_linked.mpr ⟨i, small, mem_sweepAll here (by simpa using alive)⟩)

/-- A segment of 1000 bytes, 600 of them available, where 700 are asked for. -/
theorem not_expunge_serves :
    ¬ ∀ (sma : Segments Nat) (size : Nat) (c : Cache Nat), WellFormed smallConfig c →
      (∀ s ∈ linked smallConfig c, s.value.refCount = 0) →
      size ≤ getAvailMem (sma.avail (defaultExpunge smallConfig sma false size 1 1 c))
        ∨ IsEmpty smallConfig (defaultExpunge smallConfig sma false size 1 1 c) := by
  intro serves
  let stored := perform smallConfig 1 (Cache.empty 0) (.insert [65, 0] 7 0 0 400 true 1)
  have formed : WellFormed smallConfig stored :=
    (wellFormed_empty 0).perform ⟨⟨[65], rfl, by decide⟩, ⟨⟨by decide, by decide⟩, fun s member => by
      obtain ⟨i, -, none⟩ := mem_linked.mp member
      cases none⟩⟩
  rcases serves ⟨0, 1000, fun c => [1000 - c.memSize]⟩ 700 stored formed (by decide) with
    enough | empty
  · exact absurd enough (by decide)
  · exact absurd (empty 2 (by decide)) (by decide)

end PhpExts.Apcu
