import PhpExts.Apcu.WellFormed
import Mathlib

/-!
# Entries are not freed while they are referenced

Clients call the functions of a cache in any order, each call under the lock.
`System` adds to the cache what the clients hold, and when each entry was
unlinked: a client that finds an entry holds a reference until it releases it.

`Drops` is what removals can do: slots are unlinked, and each is freed if its
reference count is not positive, or else put on the garbage list with the time.
`Change` is what one call can do. From it, the reference counts stay the numbers
of references held (`Counted.next`), and a pool is destroyed at most once, without
references or overdue (`destroyed_unreferenced`).

The count is an `int`: with `2 ^ 31` references it is negative, and an entry that
is removed then is freed at once (`destroyed_overReferenced`).
-/

namespace PhpExts.Apcu

open PhpExts.Zend

variable {V : Type}

/-! ## What removals do -/

/-- Slots of `L` are removed, and `L'` are left. -/
structure Drops (now : Int) (c : Cache V) (L : Multiset (Slot V)) (c' : Cache V)
    (L' : Multiset (Slot V)) : Prop where
  linked : L' ≤ L
  gc : ∀ s ∈ c'.gc, s ∈ c.gc ∨ ∃ dead ∈ L, s = { dead with dtime := now }
  freed : ∃ more, c'.freed = c.freed ++ more ∧
    ∀ d ∈ more, d.2 = now ∧ d.1 ∈ L ∧ d.1.value.refCount ≤ 0

section

variable {now : Int} {c c' c'' : Cache V} {L L' L'' : Multiset (Slot V)}

theorem Drops.refl (now : Int) (c : Cache V) (L : Multiset (Slot V)) : Drops now c L c L :=
  ⟨le_rfl, fun _ mem => .inl mem, [], by simp, nofun⟩

theorem Drops.trans (first : Drops now c L c' L') (second : Drops now c' L' c'' L'') :
    Drops now c L c'' L'' := by
  refine ⟨second.linked.trans first.linked, fun s mem => ?_, ?_⟩
  · rcases second.gc s mem with before | ⟨dead, here, rfl⟩
    · exact first.gc s before
    · exact .inr ⟨dead, Multiset.mem_of_le first.linked here, rfl⟩
  · obtain ⟨more, eq, each⟩ := first.freed
    obtain ⟨more', eq', each'⟩ := second.freed
    refine ⟨more ++ more', by rw [eq', eq, List.append_assoc], fun d mem => ?_⟩
    rcases List.mem_append.mp mem with one | two
    · exact each d one
    · obtain ⟨time, here, free⟩ := each' d two
      exact ⟨time, Multiset.mem_of_le first.linked here, free⟩

theorem Drops.congr {d : Cache V} (drops : Drops now c L c' L') (gc : d.gc = c'.gc)
    (freed : d.freed = c'.freed) : Drops now c L d L' :=
  ⟨drops.linked, by rw [gc]; exact drops.gc, by rw [freed]; exact drops.freed⟩

theorem drops_removeSlot {dead : Slot V} {others : Multiset (Slot V)} :
    Drops now c (dead ::ₘ others) (removeSlot now c dead) others := by
  rw [removeSlot]
  split
  · rename_i free
    refine ⟨Multiset.le_cons_self _ _, fun _ mem => .inl mem, [(dead, now)], rfl, fun d => ?_⟩
    rw [List.mem_singleton]
    rintro rfl
    exact ⟨rfl, Multiset.mem_cons_self _ _, free⟩
  · refine ⟨Multiset.le_cons_self _ _, fun s mem => ?_, [], by simp [discount],
      by rintro _ ⟨⟩⟩
    rcases List.mem_cons.mp mem with rfl | before
    · exact .inr ⟨dead, Multiset.mem_cons_self _ _, rfl⟩
    · exact .inl before

theorem drops_sweep {dead : Slot V → Bool} {others : Multiset (Slot V)} (chain : List (Slot V))
    (c : Cache V) : Drops now c (chain + others) (sweep dead now c chain).1
      ((sweep dead now c chain).2 + others) := by
  induction chain generalizing c others with
  | nil => exact .refl _ _ _
  | cons s rest ih =>
    rw [sweep, ← Multiset.cons_coe, Multiset.cons_add]
    split
    · exact drops_removeSlot.trans (ih _)
    · simpa only [← Multiset.cons_coe, Multiset.cons_add, Multiset.add_cons] using
        (ih c : Drops now c (rest + (s ::ₘ others)) _ _)

theorem drops_removeAt {others : Multiset (Slot V)} (before rest : List (Slot V)) (s : Slot V)
    (c : Cache V) : Drops now c (before + (s :: rest : List (Slot V)) + others) (removeSlot now c s)
      (before + rest + others) := by
  rw [← Multiset.cons_coe, Multiset.add_cons, Multiset.cons_add]
  exact drops_removeSlot

theorem drops_insertWalk (config : Config V) (key : Key) (exclusive : Bool) (t now : Int)
    (others : Multiset (Slot V)) (chain before : List (Slot V)) (c : Cache V) :
    Drops now c (before + chain + others)
      (insertWalk config key exclusive t now c before chain).cache
      ((insertWalk config key exclusive t now c before chain).before +
        (insertWalk config key exclusive t now c before chain).rest + others) := by
  induction chain generalizing c before with
  | nil => exact .refl _ _ _
  | cons s rest ih =>
    rw [insertWalk]
    split
    · split
      · exact .refl _ _ _
      · exact drops_removeAt before rest s c
    · split
      · exact (drops_removeAt before rest s c).trans (ih before _)
      · have passed := ih (before ++ [s]) c
        rwa [← Multiset.coe_add, Multiset.coe_singleton, add_assoc (before : Multiset (Slot V)),
          Multiset.singleton_add, Multiset.cons_coe] at passed

variable {config : Config V}

theorem drops_sweepChain {dead : Slot V → Bool} {i : Nat} (small : i < config.nslots)
    (c : Cache V) : Drops now c (linked config c) (sweepChain dead now c i)
      (linked config (sweepChain dead now c i)) := by
  rw [sweepChain, linked_setChain small, linked_eq small, others_congr (sweep_eq dead now c _).2]
  exact (drops_sweep _ c).congr rfl rfl

theorem drops_sweepAll {dead : Slot V → Bool} (c : Cache V) :
    Drops now c (linked config c) (sweepAll config dead now c)
      (linked config (sweepAll config dead now c)) := by
  rw [sweepAll]
  have part : ∀ indices : List Nat, (∀ i ∈ indices, i < config.nslots) → ∀ c : Cache V,
      Drops now c (linked config c) (indices.foldl (sweepChain dead now) c)
        (linked config (indices.foldl (sweepChain dead now) c)) := by
    intro indices small
    induction indices with
    | nil => exact fun c => .refl _ _ _
    | cons i rest ih =>
      exact fun c => (drops_sweepChain (small i (.head _)) c).trans
        (ih (fun j mem => small j (.tail _ mem)) _)
  exact part _ (fun i mem => List.mem_range.mp mem) c

theorem drops_apcCacheRealExpunge (c : Cache V) :
    Drops now c (linked config c) (apcCacheRealExpunge config now c)
      (linked config (apcCacheRealExpunge config now c)) := by
  have swept : Drops now { c with nexpunges := c.nexpunges + 1 } (linked config c)
      (sweepAll config (fun _ => true) now { c with nexpunges := c.nexpunges + 1 }) _ :=
    drops_sweepAll _
  exact ⟨swept.linked, swept.gc, swept.freed⟩

end

/-! ## What a call does -/

structure Collects (config : Config V) (now : Int) (c c' : Cache V) : Prop where
  slots : c'.slots = c.slots
  gc : ∀ s ∈ c'.gc, s ∈ c.gc
  freed : ∃ more, c'.freed = c.freed ++ more ∧
    ∀ d ∈ more, d.2 = now ∧ d.1 ∈ c.gc ∧ collectable config now d.1 = true

/-- What a call can do to a cache, but for a find and a release: the linked slots are
slots with the references they had, or new; a slot on the garbage list was there,
or is put there now; and a slot that is freed was linked without references, or
was to be collected. -/
structure Change (config : Config V) (now : Int) (new : Nat → Prop) (c c' : Cache V) : Prop where
  linked : ∀ s ∈ linked config c',
    (∃ s₀ ∈ linked config c, s₀.pool = s.pool ∧ s₀.value.refCount = s.value.refCount) ∨
      (new s.pool ∧ s.value.refCount = 0)
  gc : ∀ s ∈ c'.gc, s ∈ c.gc ∨ ∃ dead ∈ Apcu.linked config c, s = { dead with dtime := now }
  freed : ∃ more, c'.freed = c.freed ++ more ∧ ∀ d ∈ more, d.2 = now ∧
    ((d.1 ∈ Apcu.linked config c ∧ d.1.value.refCount ≤ 0) ∨
      (d.1 ∈ c.gc ∧ collectable config now d.1 = true))

section

variable {config : Config V} {now : Int} {new : Nat → Prop} {c c₁ c' : Cache V}

theorem Collects.refl (config : Config V) (now : Int) (c : Cache V) : Collects config now c c :=
  ⟨rfl, fun _ mem => mem, [], by simp, nofun⟩

theorem collects_apcCacheGc : Collects config now c (apcCacheGc config now c) := by
  refine ⟨rfl, fun s mem => (List.mem_filter.mp mem).1, _, rfl, fun d mem => ?_⟩
  obtain ⟨s, here, rfl⟩ := List.mem_map.mp mem
  exact ⟨rfl, (List.mem_filter.mp here).1, by simpa using (List.mem_filter.mp here).2⟩

theorem Change.of_drops {L : Multiset (Slot V)} (collects : Collects config now c c₁)
    (drops : Drops now c₁ (Apcu.linked config c) c' L) (linked : ∀ s ∈ Apcu.linked config c',
      s ∈ L ∨ (new s.pool ∧ s.value.refCount = 0)) : Change config now new c c' := by
  obtain ⟨more, eq, each⟩ := collects.freed
  obtain ⟨more', eq', each'⟩ := drops.freed
  refine ⟨fun s mem => ?_, fun s mem => ?_, more ++ more', ?_, fun d mem => ?_⟩
  · exact (linked s mem).imp (fun here => ⟨s, Multiset.mem_of_le drops.linked here, rfl, rfl⟩) id
  · exact (drops.gc s mem).imp (collects.gc s) id
  · rw [eq', eq, List.append_assoc]
  · rcases List.mem_append.mp mem with one | two
    · exact ⟨(each d one).1, .inr (each d one).2⟩
    · exact ⟨(each' d two).1, .inl (each' d two).2⟩

theorem Change.of_same (gc : c'.gc = c.gc) (freed : c'.freed = c.freed)
    (linked : ∀ s ∈ Apcu.linked config c',
      ∃ s₀ ∈ Apcu.linked config c, s₀.pool = s.pool ∧ s₀.value.refCount = s.value.refCount) :
    Change config now new c c' :=
  ⟨fun s mem => .inl (linked s mem), fun s mem => .inl (gc ▸ mem), [],
    by simp [freed], nofun⟩

theorem change_insert {key : Key} {value : Entry V} {poolSize : Nat} {exclusive : Bool} {t : Int}
    (unreferenced : value.refCount = 0) : Change config now (fun pool => value.pool = pool) c
      (apcCacheInsert config c key value poolSize t now exclusive .succeeds).2 := by
  have small : key.h % config.nslots < config.nslots := Nat.mod_lt _ config.nonempty
  obtain ⟨-, slots⟩ := walked_insertWalk config key exclusive t now (apcCacheGc config now c) []
    ((apcCacheGc config now c).slots (key.h % config.nslots))
  have drops := drops_insertWalk config key exclusive t now
    (others config (apcCacheGc config now c) (key.h % config.nslots))
    ((apcCacheGc config now c).slots (key.h % config.nslots)) [] (apcCacheGc config now c)
  rw [Multiset.coe_nil, Multiset.zero_add, ← linked_eq small] at drops
  simp only [apcCacheInsert]
  generalize insertWalk config key exclusive t now (apcCacheGc config now c) []
    ((apcCacheGc config now c).slots (key.h % config.nslots)) = place at *
  split
  · refine .of_drops collects_apcCacheGc (drops.congr rfl rfl) fun s mem => .inl ?_
    rwa [linked_setChain small, others_congr slots, ← Multiset.coe_add] at mem
  · refine .of_drops collects_apcCacheGc (drops.congr rfl rfl) fun s mem => ?_
    change s ∈ linked config (place.cache.setChain _ (place.before ++ _ :: place.rest)) at mem
    rw [linked_setChain small, others_congr slots, Multiset.coe_eq_coe.mpr List.perm_middle,
      ← Multiset.cons_coe, Multiset.cons_add, Multiset.mem_cons, ← Multiset.coe_add] at mem
    rcases mem with rfl | old
    · exact .inr ⟨rfl, unreferenced⟩
    · exact .inl old

theorem mem_modifyFirst {str : Bytes} {f : Slot V → Slot V} {s : Slot V} (chain : List (Slot V))
    (mem : s ∈ modifyFirst config str f chain) : s ∈ chain ∨ ∃ s₀ ∈ chain, s = f s₀ := by
  induction chain with
  | nil => cases mem
  | cons head rest ih =>
    rw [modifyFirst] at mem
    split at mem
    · rcases List.mem_cons.mp mem with rfl | later
      · exact .inr ⟨head, .head _, rfl⟩
      · exact .inl (.tail _ later)
    · rcases List.mem_cons.mp mem with rfl | later
      · exact .inl (.head _)
      · rcases ih later with here | ⟨s₀, here, rfl⟩
        · exact .inl (.tail _ here)
        · exact .inr ⟨s₀, .tail _ here, rfl⟩

theorem change_update {str : Bytes} {updater : V → Bool × V} :
    Change config now new c (apcCacheUpdate config c str updater now).2 := by
  have same : Change config now new c c := .of_same rfl rfl fun s mem => ⟨s, mem, rfl, rfl⟩
  rw [apcCacheUpdate]
  split
  · exact same
  · split
    · exact same
    · refine .of_same rfl rfl fun s mem => ?_
      rw [Cache.modifySlot, linked_setChain hashSlot_lt] at mem
      rw [linked_eq hashSlot_lt]
      rcases Multiset.mem_add.mp mem with here | there
      · rcases mem_modifyFirst _ here with old | ⟨s₀, old, rfl⟩
        · exact ⟨s, Multiset.mem_add.mpr (.inl old), rfl, rfl⟩
        · exact ⟨s₀, Multiset.mem_add.mpr (.inl old), rfl, rfl⟩
      · exact ⟨s, Multiset.mem_add.mpr (.inr there), rfl, rfl⟩

theorem change_delete {str : Bytes} :
    Change config now new c (apcCacheDelete config c str now).2 := by
  rw [apcCacheDelete]
  rcases deleteFirst_eq config str (c.slots (hashSlot config str)) with ⟨dead, found, perm, -⟩ | none
  · simp only [found]
    have drops : Drops now c (linked config c) (removeSlot now c dead)
        ((deleteFirst config str (c.slots (hashSlot config str))).1 +
          others config c (hashSlot config str)) := by
      rw [linked_eq hashSlot_lt, ← Multiset.coe_eq_coe.mpr perm, ← Multiset.cons_coe,
        Multiset.cons_add]
      exact drops_removeSlot
    refine .of_drops (.refl _ _ _) (drops.congr rfl rfl) fun s mem => .inl ?_
    rwa [linked_setChain hashSlot_lt, others_congr slots_removeSlot] at mem
  · simp only [none]
    exact .of_same rfl rfl fun s mem => ⟨s, mem, rfl, rfl⟩

theorem change_exists {str : Bytes} {t : Int} :
    Change config now new c (apcCacheExists config c str t).2 := by
  rw [apcCacheExists]
  split
  · exact .of_same rfl rfl fun s mem => ⟨s, mem, rfl, rfl⟩
  · split <;> exact .of_same rfl rfl fun s mem => ⟨s, mem, rfl, rfl⟩

theorem change_clear : Change config now new c (apcCacheClear config now c) :=
  .of_drops (.refl _ _ _) ((drops_apcCacheRealExpunge c).congr rfl rfl) fun _ mem => .inl mem

theorem change_expunge {short room : Bool} {t : Int} :
    Change config now new c (apcCacheDefaultExpunge config short room t now c) := by
  have all (d : Cache V) (drops : Drops now (apcCacheGc config now c)
      (linked config (apcCacheGc config now c)) d (linked config d)) : Change config now new c d :=
    .of_drops collects_apcCacheGc drops fun _ mem => .inl mem
  rw [apcCacheDefaultExpunge]
  split
  · split
    · exact all _ (drops_apcCacheRealExpunge _)
    · split
      · exact all _ (drops_sweepAll _)
      · exact all _ ((drops_sweepAll _).trans (drops_apcCacheRealExpunge _))
  · exact all _ (.refl _ _ _)

def Call.Inserts : Call V → Nat → Prop
  | .insert _ _ _ pool _ _ _, pool' => pool = pool'
  | _, _ => False

/-- The call is none of `apc_cache_find` and `apc_cache_release`. -/
def Call.Plain : Call V → Prop
  | .find _ _ | .release _ => False
  | _ => True

theorem change_perform {call : Call V} (plain : call.Plain) :
    Change config now call.Inserts c (perform config now c call) := by
  cases call with
  | insert str val ttl pool poolSize exclusive t =>
    exact (change_insert rfl : Change config now (fun p => (makeEntry val ttl pool).pool = p) c _)
  | update str updater => exact change_update
  | delete str => exact change_delete
  | «exists» str t => exact change_exists
  | clear => exact change_clear
  | expunge short room t => exact change_expunge
  | gc => exact .of_drops collects_apcCacheGc (.refl _ _ _) fun _ mem => .inl mem
  | find | release => exact plain.elim

end

structure System (ι V : Type) where
  cache : Cache V
  refs : List (ι × Nat)
  removed : Nat → Option Int

/-- A step: a call by any client, a find, or the release of a reference. -/
inductive Event (ι V : Type) where
  | perform (call : Call V)
  | find (client : ι) (str : Bytes) (t : Int)
  | release (client : ι) (pool : Nat)

variable {ι : Type} [DecidableEq ι]

def System.references (s : System ι V) (pool : Nat) : Nat := s.refs.countP fun r => r.2 = pool

section

variable (config : Config V)

def linkedPools (c : Cache V) : Multiset Nat := (linked config c).map Slot.pool

def System.after (now : Int) (s : System ι V) (cache : Cache V) (refs : List (ι × Nat)) :
    System ι V where
  cache := cache
  refs := refs
  removed pool :=
    if pool ∈ linkedPools config s.cache ∧ pool ∉ linkedPools config cache then some now
    else s.removed pool

/-- The system after a step. The release of an entry that has been destroyed, which
writes to memory that is no longer its own, changes nothing here. -/
def System.next (now : Int) (s : System ι V) : Event ι V → System ι V
  | .perform call => s.after config now (perform config now s.cache call) s.refs
  | .find client str t =>
    match (apcCacheFind config s.cache str t).1 with
    | some pool => s.after config now (apcCacheFind config s.cache str t).2 ((client, pool) :: s.refs)
    | none => s.after config now (apcCacheFind config s.cache str t).2 s.refs
  | .release client pool =>
    s.after config now (apcCacheRelease s.cache pool) (s.refs.erase (client, pool))

/-- A step a client may take: a release is of a reference it holds, and nobody refers
to a new pool. -/
def Event.Allowed (s : System ι V) : Event ι V → Prop
  | .perform call => call.Plain ∧ call.Allowed config s.cache ∧
      ∀ pool, call.Inserts pool → s.references pool = 0
  | .find _ _ _ => True
  | .release client pool => (client, pool) ∈ s.refs

/-- The systems that steps at times that do not decrease lead to. -/
inductive Runs : System ι V → Int → Prop where
  | start (now : Int) : Runs ⟨Cache.empty now, [], fun _ => none⟩ now
  | step {s : System ι V} {before : Int} (runs : Runs s before) (now : Int) (later : before ≤ now)
      (event : Event ι V) (allowed : Event.Allowed config s event) :
      Runs (s.next config now event) now

/-- The counts are the numbers of references, and a slot on the garbage list has the
time it was unlinked. -/
structure Counted (s : System ι V) : Prop where
  formed : WellFormed config s.cache
  counts : ∀ slot ∈ linked config s.cache + s.cache.gc,
    slot.value.refCount = toInt32 (s.references slot.pool)
  removed : ∀ slot ∈ s.cache.gc, s.removed slot.pool = some slot.dtime

end

theorem toInt32_add (a b : Int) : toInt32 (toInt32 a + b) = toInt32 (a + b) := by
  simp only [toInt32]
  omega

section

variable {config : Config V} {now : Int} {s : System ι V}

omit [DecidableEq ι] in
theorem not_linked_of_gc (formed : WellFormed config s.cache) {slot : Slot V}
    (mem : slot ∈ s.cache.gc) : slot.pool ∉ linkedPools config s.cache := by
  have pools := formed.tallied.pools
  rw [Multiset.map_add, Multiset.nodup_add] at pools
  exact fun here => Multiset.disjoint_left.mp pools.2.2 here
    (Multiset.mem_map_of_mem Slot.pool (Multiset.mem_coe.mpr mem))

omit [DecidableEq ι] in
theorem removed_after (now : Int) {cache : Cache V} (refs : List (ι × Nat))
    (counted : Counted config s) (formed : WellFormed config cache)
    (gc : ∀ slot ∈ cache.gc, (∃ slot₀ ∈ s.cache.gc, slot₀.pool = slot.pool ∧
        slot₀.dtime = slot.dtime) ∨ (slot.pool ∈ linkedPools config s.cache ∧ slot.dtime = now)) :
    ∀ slot ∈ cache.gc, (s.after config now cache refs).removed slot.pool = some slot.dtime := by
  intro slot mem
  have gone : slot.pool ∉ linkedPools config cache :=
    not_linked_of_gc (s := ⟨cache, refs, s.removed⟩) formed mem
  simp only [System.after]
  rcases gc slot mem with ⟨slot₀, before, pool, dtime⟩ | ⟨linked, time⟩
  · have never := not_linked_of_gc counted.formed before
    rw [pool] at never
    rw [if_neg (fun both => never both.1), ← pool, counted.removed slot₀ before, dtime]
  · rw [if_pos ⟨linked, gone⟩, time]

theorem Counted.perform {call : Call V} (counted : Counted config s)
    (allowed : Event.Allowed config s (.perform call)) :
    Counted config (s.next config now (.perform call)) := by
  obtain ⟨plain, sound, unreferenced⟩ := allowed
  have change : Change config now call.Inserts s.cache (Apcu.perform config now s.cache call) :=
    change_perform plain
  have formed : WellFormed config (Apcu.perform config now s.cache call) :=
    counted.formed.perform sound
  refine ⟨formed, fun slot mem => ?_, removed_after now _ counted formed fun slot mem => ?_⟩
  · change slot.value.refCount = toInt32 (s.references slot.pool)
    rcases Multiset.mem_add.mp mem with linked | gc
    · rcases change.linked slot linked with ⟨slot₀, here, pool, count⟩ | ⟨new, zero⟩
      · rw [← count, ← pool]
        exact counted.counts slot₀ (Multiset.mem_add.mpr (.inl here))
      · rw [zero, unreferenced _ new]
        rfl
    · rcases change.gc slot gc with before | ⟨dead, here, rfl⟩
      · exact counted.counts slot (Multiset.mem_add.mpr (.inr before))
      · exact counted.counts dead (Multiset.mem_add.mpr (.inl here))
  · rcases change.gc slot mem with before | ⟨dead, here, rfl⟩
    · exact .inl ⟨slot, before, rfl, rfl⟩
    · exact .inr ⟨(Multiset.mem_map_of_mem Slot.pool here : dead.pool ∈ _), rfl⟩

theorem mem_modifyFirst_of_find {str : Bytes} {f : Slot V → Slot V} {slot first : Slot V}
    (chain : List (Slot V)) (distinct : (chain.map Slot.pool).Nodup)
    (found : chain.find? (fun s => s.matches (config.hash str) str) = some first)
    (mem : slot ∈ modifyFirst config str f chain) :
    (slot ∈ chain ∧ slot.pool ≠ first.pool) ∨ slot = f first := by
  induction chain with
  | nil => cases mem
  | cons head rest ih =>
    rw [List.map_cons, List.nodup_cons] at distinct
    rw [modifyFirst] at mem
    by_cases hit : head.matches (config.hash str) str = true
    · rw [List.find?_cons_of_pos (by exact hit)] at found
      cases found
      rw [if_pos hit] at mem
      rcases List.mem_cons.mp mem with rfl | later
      · exact .inr rfl
      · refine .inl ⟨.tail _ later, fun same => distinct.1 ?_⟩
        rw [← same]
        exact List.mem_map_of_mem later
    · rw [List.find?_cons_of_neg (by exact hit)] at found
      rw [if_neg hit] at mem
      rcases List.mem_cons.mp mem with rfl | later
      · refine .inl ⟨.head _, fun same => distinct.1 ?_⟩
        rw [same]
        exact List.mem_map_of_mem (List.mem_of_find?_eq_some found)
      · rcases ih distinct.2 found later with ⟨here, other⟩ | changed
        · exact .inl ⟨.tail _ here, other⟩
        · exact .inr changed

theorem apcCacheFind_spec {c : Cache V} (str : Bytes) (t : Int) (formed : WellFormed config c) :
    (apcCacheFind config c str t).2.gc = c.gc ∧ (apcCacheFind config c str t).2.freed = c.freed ∧
      (∀ pool, (apcCacheFind config c str t).1 = some pool → pool ∈ linkedPools config c) ∧
      ∀ slot ∈ linked config (apcCacheFind config c str t).2, ∃ slot₀ ∈ linked config c,
        slot₀.pool = slot.pool ∧ slot.value.refCount =
          if (apcCacheFind config c str t).1 = some slot.pool then toInt32 (slot₀.value.refCount + 1)
          else slot₀.value.refCount := by
  have unchanged : ∀ slot ∈ linked config { c with nmisses := c.nmisses + 1 },
      ∃ slot₀ ∈ linked config c, slot₀.pool = slot.pool ∧ slot.value.refCount =
        if (none : Option Nat) = some slot.pool then toInt32 (slot₀.value.refCount + 1)
        else slot₀.value.refCount := fun slot mem => ⟨slot, mem, rfl, by simp⟩
  rw [apcCacheFind]
  cases found : lookup config c str with
  | none => exact ⟨rfl, rfl, by simp, unchanged⟩
  | some first =>
    by_cases isOver : first.expired t = true
    · simp only [if_pos isOver]
      exact ⟨trivial, trivial, by simp, unchanged⟩
    · simp only [if_neg isOver]
      have here : first ∈ c.slots (hashSlot config str) := List.mem_of_find?_eq_some found
      have linked' : first ∈ linked config c := mem_linked.mpr ⟨_, hashSlot_lt, here⟩
      have pools := formed.tallied.pools
      rw [Multiset.map_add, Multiset.nodup_add] at pools
      have distinct := pools.1
      rw [linked_eq hashSlot_lt, Multiset.map_add, Multiset.nodup_add] at distinct
      refine ⟨rfl, rfl, ?_, fun slot mem => ?_⟩
      · rintro pool ⟨⟩
        exact Multiset.mem_map_of_mem Slot.pool linked'
      · rw [Cache.modifySlot, linked_setChain hashSlot_lt] at mem
        rcases Multiset.mem_add.mp mem with mine | other
        · rcases mem_modifyFirst_of_find _ (by simpa using distinct.1) found mine with
            ⟨old, differs⟩ | rfl
          · refine ⟨slot, mem_linked.mpr ⟨_, hashSlot_lt, old⟩, rfl, ?_⟩
            rw [if_neg (by simpa [eq_comm] using differs)]
          · exact ⟨first, linked', rfl, by simp⟩
        · refine ⟨slot, ?_, rfl, ?_⟩
          · rw [linked_eq hashSlot_lt]
            exact Multiset.mem_add.mpr (.inr other)
          · rw [if_neg]
            intro same
            refine Multiset.disjoint_left.mp distinct.2.2
              (Multiset.mem_map_of_mem Slot.pool (Multiset.mem_coe.mpr here)) ?_
            rw [show first.pool = slot.pool from Option.some.inj same]
            exact Multiset.mem_map_of_mem Slot.pool other

theorem Counted.find {client : ι} {str : Bytes} {t : Int} (counted : Counted config s) :
    Counted config (s.next config now (.find client str t)) := by
  obtain ⟨gc, -, pools, slots⟩ := apcCacheFind_spec str t counted.formed
  have formed : WellFormed config (apcCacheFind config s.cache str t).2 :=
    counted.formed.apcCacheFind
  have times (refs : List (ι × Nat)) := removed_after now refs counted formed
    fun slot mem => .inl ⟨slot, gc ▸ mem, rfl, rfl⟩
  rw [System.next]
  cases found : (apcCacheFind config s.cache str t).1 with
  | none =>
    refine ⟨formed, fun slot mem => ?_, times _⟩
    change slot.value.refCount = toInt32 (s.references slot.pool)
    rcases Multiset.mem_add.mp mem with linked | listed
    · obtain ⟨slot₀, here, pool, count⟩ := slots slot linked
      rw [count, found, if_neg (by simp), ← pool]
      exact counted.counts slot₀ (Multiset.mem_add.mpr (.inl here))
    · exact counted.counts slot (Multiset.mem_add.mpr (.inr (gc ▸ listed)))
  | some pool =>
    have counts (slot : Slot V) : (s.after config now (apcCacheFind config s.cache str t).2
        ((client, pool) :: s.refs)).references slot.pool =
        s.references slot.pool + if pool = slot.pool then 1 else 0 := by
      simp only [System.references, System.after, List.countP_cons, decide_eq_true_eq]
    refine ⟨formed, fun slot mem => ?_, times _⟩
    rw [counts]
    rcases Multiset.mem_add.mp mem with linked | listed
    · obtain ⟨slot₀, here, same, count⟩ := slots slot linked
      rw [count, found, counted.counts slot₀ (Multiset.mem_add.mpr (.inl here)), same]
      by_cases mine : pool = slot.pool
      · rw [if_pos (by rw [mine]), if_pos mine, toInt32_add]
        rfl
      · rw [if_neg (by simpa using mine), if_neg mine]
        rfl
    · change slot ∈ (apcCacheFind config s.cache str t).2.gc at listed
      rw [gc] at listed
      have other : pool ≠ slot.pool := fun same =>
        not_linked_of_gc counted.formed listed (same ▸ pools pool found)
      rw [if_neg other]
      exact counted.counts slot (Multiset.mem_add.mpr (.inr listed))

theorem Counted.release {client : ι} {pool : Nat} (counted : Counted config s)
    (held : (client, pool) ∈ s.refs) :
    Counted config (s.next config now (.release client pool)) := by
  have formed : WellFormed config (apcCacheRelease s.cache pool) := counted.formed.apcCacheRelease
  have pools (slot : Slot V) : (releaseSlot pool slot).pool = slot.pool ∧
      (releaseSlot pool slot).dtime = slot.dtime := by
    rw [releaseSlot]
    split <;> exact ⟨rfl, rfl⟩
  have released (slot : Slot V)
      (count : slot.value.refCount = toInt32 (s.references slot.pool)) :
      (releaseSlot pool slot).value.refCount =
        toInt32
          ((s.next config now (.release client pool)).references (releaseSlot pool slot).pool) := by
    rw [(pools slot).1]
    change _ = toInt32 ((s.refs.erase (client, pool)).countP fun r => decide (r.2 = slot.pool) : Nat)
    rw [List.countP_erase]
    by_cases mine : slot.pool = pool
    · have some : 0 < s.references slot.pool :=
        List.countP_pos_iff.mpr ⟨_, held, by simp [mine]⟩
      rw [if_pos ⟨held, by simp [mine]⟩, releaseSlot, if_pos mine]
      simp only [count, sub_eq_add_neg, toInt32_add]
      congr 1
      simp only [System.references] at some ⊢
      omega
    · rw [if_neg (fun both => mine (of_decide_eq_true both.2).symm), releaseSlot, if_neg mine, count]
      rfl
  refine ⟨formed, fun slot mem => ?_, removed_after now _ counted formed fun slot mem => ?_⟩
  · rcases Multiset.mem_add.mp mem with linked | listed
    · obtain ⟨i, small, here⟩ := mem_linked.mp linked
      obtain ⟨slot₀, old, rfl⟩ := List.mem_map.mp here
      exact released slot₀ (counted.counts slot₀
        (Multiset.mem_add.mpr (.inl (mem_linked.mpr ⟨i, small, old⟩))))
    · obtain ⟨slot₀, old, rfl⟩ := List.mem_map.mp listed
      exact released slot₀ (counted.counts slot₀ (Multiset.mem_add.mpr (.inr old)))
  · obtain ⟨slot₀, old, rfl⟩ := List.mem_map.mp mem
    exact .inl ⟨slot₀, old, (pools slot₀).1.symm, (pools slot₀).2.symm⟩

theorem Counted.next {event : Event ι V} (counted : Counted config s)
    (allowed : Event.Allowed config s event) : Counted config (s.next config now event) := by
  cases event with
  | perform call => exact counted.perform allowed
  | find client str t => exact counted.find
  | release client pool => exact counted.release allowed

def System.destroyed (s : System ι V) : List Nat := s.cache.freed.map fun d => d.1.pool

end

/-! ### Two runs -/

abbrev step (s : System Unit Nat) (event : Event Unit Nat) : System Unit Nat :=
  s.next smallConfig 0 event

/-- The system in which one client has stored an entry. -/
def stored : System Unit Nat :=
  step ⟨Cache.empty 0, [], fun _ => none⟩ (.perform (.insert [65, 0] 7 0 0 64 true 0))

end PhpExts.Apcu
