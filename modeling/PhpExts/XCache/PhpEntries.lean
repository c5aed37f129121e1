import PhpExts.XCache.PhpRecords

/-!
# Entries are removed, held and collected

An entry that goes from its chain is loose until it is freed or is put with those that await
deletion. The sections under the lock are made of such steps, and each keeps the cache
consistent: lookups whose key is that of one linked entry at most (`lookup_spec`), stores of
what is not there yet (`store_spec`), and collections of entries that are not held
(`gcDeletes_spec`).
-/

namespace PhpExts.XCache.PhpCache

open PhpExts.Library
open Function (update update_of_ne update_self)
open Option (bind_eq_bind bind_some)

variable {config : Config} {cached cached' : Cached config} {slot : Fin config.slots}
  {entry : Nat} {requestTime : Int} {pid : Nat}

structure Consistent (cached : Cached config) : Prop where
  linked : Linked none cached
  shared : Shared none cached

/-! ## Loose entries -/

theorem mem_update_erase (nodup : ∀ slot, (cached.entries slot).Nodup) {any : Fin config.slots}
    {e : Nat} : e ∈ update cached.entries slot ((cached.entries slot).erase entry) any ↔
      e ∈ cached.entries any ∧ (any = slot → e ≠ entry) := by
  by_cases here : any = slot
  · subst here
    rw [update_self, (nodup any).mem_erase_iff]
    simp only [true_imp_iff, and_comm]
  · rw [update_of_ne here]
    simp only [here, false_imp_iff, and_true]

theorem Linked.unlink (linked : Linked none cached) (mem : entry ∈ cached.entries slot)
    (removals : List (Nat × Nat)) :
    Linked (some entry) { cached with
      entries := update cached.entries slot ((cached.entries slot).erase entry)
      removals
      entriesCount := cached.entriesCount - 1 } := by
  have chain : ∀ {any e},
      e ∈ update cached.entries slot ((cached.entries slot).erase entry) any ↔
      e ∈ cached.entries any ∧ (any = slot → e ≠ entry) := mem_update_erase linked.chainNodup
  constructor
  · exact fun here => linked.linked (chain.mp here).1
  · exact linked.deleted
  · rintro e own
    cases own
    refine ⟨linked.linked mem, fun any here => ?_, linked.notBoth mem⟩
    obtain ⟨here, other⟩ := chain.mp here
    exact other (linked.oneSlot here mem) rfl
  · intro e live
    by_cases own : e = entry
    · exact .inr (.inr (congrArg some own.symm))
    · rcases linked.owned live with ⟨any, here⟩ | deleted | loose
      · exact .inl ⟨any, chain.mpr ⟨here, fun _ => own⟩⟩
      · exact .inr (.inl deleted)
      · cases loose
  · intro any
    dsimp only
    by_cases here : any = slot
    · subst here
      rw [update_self]
      exact (linked.chainNodup any).erase entry
    · rw [update_of_ne here]
      exact linked.chainNodup any
  · exact fun here there => linked.oneSlot (chain.mp here).1 (chain.mp there).1
  · exact linked.deletesNodup
  · exact fun here => linked.notBoth (chain.mp here).1
  · exact fun here there => linked.unequal (chain.mp here).1 (chain.mp there).1
  · exact linked.refcount
  · exact linked.held
  · dsimp only
    have positive := List.length_pos_of_mem mem
    rw [sum_update, linked.entriesCount, List.length_erase_of_mem mem]
    omega
  · exact linked.deletesCount

theorem Linked.undelete (linked : Linked none cached) (mem : entry ∈ cached.deletes)
    (removals : List (Nat × Nat)) :
    Linked (some entry) { cached with
      deletes := cached.deletes.erase entry
      deletesCount := cached.deletesCount - 1
      removals } := by
  have rest : ∀ {e}, e ∈ cached.deletes.erase entry ↔ e ≠ entry ∧ e ∈ cached.deletes :=
    linked.deletesNodup.mem_erase_iff
  constructor
  · exact linked.linked
  · exact fun here => linked.deleted (rest.mp here).2
  · rintro e own
    cases own
    exact ⟨linked.deleted mem, fun _ here => linked.notBoth here mem,
      fun here => (rest.mp here).1 rfl⟩
  · intro e live
    by_cases own : e = entry
    · exact .inr (.inr (congrArg some own.symm))
    · rcases linked.owned live with chain | deleted | loose
      · exact .inl chain
      · exact .inr (.inl (rest.mpr ⟨own, deleted⟩))
      · cases loose
  · exact linked.chainNodup
  · exact linked.oneSlot
  · exact linked.deletesNodup.erase entry
  · exact fun here there => linked.notBoth here (rest.mp there).2
  · exact linked.unequal
  · exact linked.refcount
  · exact linked.held
  · exact linked.entriesCount
  · dsimp only
    have positive := List.length_pos_of_mem mem
    rw [linked.deletesCount, List.length_erase_of_mem mem]
    omega

theorem Linked.free (linked : Linked (some entry) cached)
    (unheld : (cached.entryMemory.data entry).refcount = 0) (phpMemory : Memory Php)
    (phps : Fin config.phpSlots → List Nat) (removals : List (Nat × Nat)) :
    Linked none { cached with
      entryMemory := cached.entryMemory.free entry
      phpMemory, phps, removals } := by
  obtain ⟨live, notLinked, notDeleted⟩ := linked.unlinked rfl
  constructor
  · exact fun here => Finset.mem_erase.mpr
      ⟨fun same => notLinked _ (same ▸ here), linked.linked here⟩
  · exact fun here => Finset.mem_erase.mpr ⟨fun same => notDeleted (same ▸ here),
      linked.deleted here⟩
  · exact nofun
  · intro e mem
    obtain ⟨other, mem⟩ := Finset.mem_erase.mp mem
    rcases linked.owned mem with chain | deleted | loose
    · exact .inl chain
    · exact .inr (.inl deleted)
    · exact absurd (Option.some.inj loose).symm other
  · exact linked.chainNodup
  · exact linked.oneSlot
  · exact linked.deletesNodup
  · exact linked.notBoth
  · exact linked.unequal
  · exact fun mem => linked.refcount (Finset.mem_of_mem_erase mem)
  · intro pid e here
    refine Finset.mem_erase.mpr ⟨?_, linked.held here⟩
    rintro rfl
    have none := linked.refcount live
    rw [unheld] at none
    have some := List.count_pos_iff.mpr (List.mem_map_of_mem (f := Prod.snd) here)
    dsimp only at some
    omega
  · exact linked.entriesCount
  · exact linked.deletesCount

theorem Linked.delete (linked : Linked (some entry) cached) (dtime : Int) :
    Linked none { cached with
      deletes := entry :: cached.deletes
      entryMemory := cached.entryMemory.write entry
        { cached.entryMemory.data entry with dtime }
      deletesCount := cached.deletesCount + 1 } := by
  obtain ⟨live, notLinked, notDeleted⟩ := linked.unlinked rfl
  have key : ∀ e,
      ((cached.entryMemory.write entry { cached.entryMemory.data entry with dtime }).data e).key =
        (cached.entryMemory.data e).key := by
    intro e
    by_cases own : e = entry
    · rw [own, Memory.write_data_self]
    · rw [Memory.write_data_of_ne own]
  have refcount : ∀ e, ((cached.entryMemory.write entry
      { cached.entryMemory.data entry with dtime }).data e).refcount =
        (cached.entryMemory.data e).refcount := by
    intro e
    by_cases own : e = entry
    · rw [own, Memory.write_data_self]
    · rw [Memory.write_data_of_ne own]
  constructor
  · exact linked.linked
  · exact fun here => (List.mem_cons.mp here).elim (fun own => own ▸ live) linked.deleted
  · exact nofun
  · intro e mem
    rcases linked.owned mem with chain | deleted | loose
    · exact .inl chain
    · exact .inr (.inl (.tail _ deleted))
    · cases loose
      exact .inr (.inl (.head _))
  · exact linked.chainNodup
  · exact linked.oneSlot
  · exact List.nodup_cons.mpr ⟨notDeleted, linked.deletesNodup⟩
  · intro any e here there
    rcases List.mem_cons.mp there with rfl | there
    · exact notLinked any here
    · exact linked.notBoth here there
  · intro any e other here there equal
    simp only [key] at equal
    exact linked.unequal here there equal
  · intro e mem
    simp only [refcount]
    exact linked.refcount mem
  · exact linked.held
  · exact linked.entriesCount
  · dsimp only
    rw [linked.deletesCount, List.length_cons]
    omega

theorem entryFree_spec
    (linked : Linked (some entry) { cached with entriesCount := cached.entriesCount - 1 })
    (shared : Shared none cached) :
    ∃ cached', entryFree requestTime cached entry = some cached' ∧ Consistent cached' ∧
      cached'.entries = cached.entries ∧
      ∀ e, (cached'.entryMemory.data e).key = (cached.entryMemory.data e).key := by
  have live := (linked.unlinked rfl).1
  dsimp only at live
  by_cases unheld : (cached.entryMemory.data entry).refcount = 0
  · have sharedBefore : Shared none { cached with entriesCount := cached.entriesCount - 1 } :=
      shared.congr rfl (fun _ => rfl) rfl rfl shared.removals
    obtain ⟨cached', freed, shared', frame⟩ := entryFreeReal_spec sharedBefore live
    have linked' := linked.free unheld cached'.phpMemory cached'.phps cached'.removals
    rw [← frame] at linked'
    refine ⟨cached', ?_, ⟨linked', shared'⟩, by rw [frame], fun e => by rw [frame]; rfl⟩
    simp only [entryFree, Memory.read_eq_some live, bind_eq_bind, bind_some, unheld,
      if_true, freed]
  · refine ⟨_, ?_, ⟨linked.delete requestTime, ?_⟩, rfl, fun e => ?_⟩
    · simp only [entryFree, Memory.read_eq_some live, bind_eq_bind, bind_some, unheld,
        if_false]
    · refine shared.congr rfl (fun e => ?_) rfl rfl shared.removals
      dsimp only
      by_cases own : e = entry
      · rw [own, Memory.write_data_self]
      · rw [Memory.write_data_of_ne own]
    · dsimp only
      by_cases own : e = entry
      · rw [own, Memory.write_data_self]
      · rw [Memory.write_data_of_ne own]

/-! ## Removal and lookup -/

theorem entryRemove_spec (consistent : Consistent cached) (mem : entry ∈ cached.entries slot) :
    ∃ cached', entryRemove requestTime cached slot entry = some cached' ∧ Consistent cached' ∧
      cached'.entries = update cached.entries slot ((cached.entries slot).erase entry) ∧
      ∀ e, (cached'.entryMemory.data e).key = (cached.entryMemory.data e).key := by
  obtain ⟨linked, shared⟩ := consistent
  have live := linked.linked mem
  have equal : entryEqual (cached.entryMemory.data entry).key
      (cached.entryMemory.data entry).key = true := by
    simp [entryEqual]
  have found : findFirst cached.entryMemory
      (fun p => entryEqual (cached.entryMemory.data entry).key p.key) (cached.entries slot) =
        some (some entry) := by
    rw [findFirst_eq fun address here => linked.linked here]
    cases first : (cached.entries slot).find? fun address =>
        entryEqual (cached.entryMemory.data entry).key (cached.entryMemory.data address).key with
    | none => exact absurd equal (List.find?_eq_none.mp first entry mem)
    | some p =>
      have same := List.find?_some first
      rw [linked.unequal mem (List.mem_of_find?_eq_some first) same]
  have unlinked := linked.unlink mem ((entry, entry) :: cached.removals)
  have sharedAfter : Shared none { PhpCache.unlink cached slot entry with
      removals := (entry, entry) :: cached.removals } :=
    shared.congr rfl (fun _ => rfl) rfl rfl (List.forall_mem_cons.mpr ⟨rfl, shared.removals⟩)
  obtain ⟨cached', freed, consistent', entries, key⟩ :=
    @entryFree_spec _ { PhpCache.unlink cached slot entry with
      removals := (entry, entry) :: cached.removals } entry requestTime unlinked sharedAfter
  refine ⟨cached', ?_, consistent', entries, key⟩
  simp only [entryRemove, Memory.read_eq_some live, bind_eq_bind, bind_some, found,
    freed]

theorem Consistent.write (consistent : Consistent cached) {record : Entry}
    (key : record.key = (cached.entryMemory.data entry).key)
    (php : record.php = (cached.entryMemory.data entry).php)
    (refcount : record.refcount = (cached.entryMemory.data entry).refcount) :
    Consistent { cached with entryMemory := cached.entryMemory.write entry record } ∧
      ∀ e, ((cached.entryMemory.write entry record).data e).key =
        (cached.entryMemory.data e).key := by
  obtain ⟨linked, shared⟩ := consistent
  have keys : ∀ e, ((cached.entryMemory.write entry record).data e).key =
      (cached.entryMemory.data e).key := by
    intro e
    by_cases own : e = entry
    · rw [own, Memory.write_data_self, key]
    · rw [Memory.write_data_of_ne own]
  have refcounts : ∀ e, ((cached.entryMemory.write entry record).data e).refcount =
      (cached.entryMemory.data e).refcount := by
    intro e
    by_cases own : e = entry
    · rw [own, Memory.write_data_self, refcount]
    · rw [Memory.write_data_of_ne own]
  refine ⟨⟨⟨linked.linked, linked.deleted, nofun, linked.owned, linked.chainNodup, linked.oneSlot,
    linked.deletesNodup, linked.notBoth, ?_, ?_, linked.held, linked.entriesCount,
    linked.deletesCount⟩, shared.congr rfl (fun e => ?_) rfl rfl shared.removals⟩, keys⟩
  · intro any e other here there equal
    simp only [keys] at equal
    exact linked.unequal here there equal
  · intro e mem
    simp only [refcounts]
    exact linked.refcount mem
  · dsimp only
    by_cases own : e = entry
    · rw [own, Memory.write_data_self, php]
    · rw [Memory.write_data_of_ne own]

def Lone (cached : Cached config) (slot : Fin config.slots) (key : Key) : Prop :=
  ∀ e ∈ cached.entries slot, ∀ other ∈ cached.entries slot,
    entryEqual key (cached.entryMemory.data e).key = true →
      entryEqual key (cached.entryMemory.data other).key = true → e = other

theorem Lone.shrinks {key : Key} (lone : Lone cached slot key) (shrinks : Shrinks cached cached') :
    Lone cached' slot key := by
  intro e mem other member' equal equal'
  rw [shrinks.key] at equal equal'
  exact lone e (shrinks.entries mem) other (shrinks.entries member') equal equal'

theorem entryFind_spec (consistent : Consistent cached) (key : Key) :
    ∃ found cached', entryFind requestTime cached slot key = some (found, cached') ∧
      Consistent cached' ∧ Shrinks cached cached' ∧
      (∀ e, found = some e → e ∈ cached'.entryMemory.live) ∧
      (found = none → Lone cached slot key → ∀ e ∈ cached'.entries slot,
        entryEqual key (cached'.entryMemory.data e).key = false) := by
  unfold entryFind
  rw [findFirst_eq fun address here => consistent.linked.linked here, bind_eq_bind,
    bind_some]
  cases first : (cached.entries slot).find? fun address =>
      entryEqual key (cached.entryMemory.data address).key with
  | none =>
    refine ⟨none, cached, rfl, consistent, .refl cached, nofun, fun _ _ e mem => ?_⟩
    exact Bool.eq_false_iff.mpr (List.find?_eq_none.mp first e mem)
  | some p =>
    have mem := List.mem_of_find?_eq_some first
    have equal := List.find?_some first
    have live := consistent.linked.linked mem
    simp only [Memory.read_eq_some live, bind_eq_bind, bind_some]
    by_cases fresh : (cached.entryMemory.data p).key.mtime = key.mtime ∧
        (cached.entryMemory.data p).key.size = key.size
    · rw [if_pos fresh]
      obtain ⟨consistent', keys⟩ := @Consistent.write _ cached p consistent
        { cached.entryMemory.data p with atime := requestTime } rfl rfl rfl
      refine ⟨some p, _, rfl, consistent', ⟨fun here => here, keys⟩, fun e same => ?_, nofun⟩
      cases same
      exact live
    · rw [if_neg fresh]
      obtain ⟨cached', removed, consistent', entries, keys⟩ :=
        @entryRemove_spec _ cached slot p requestTime consistent mem
      have chain : ∀ {any e}, e ∈ cached'.entries any ↔
          e ∈ cached.entries any ∧ (any = slot → e ≠ p) := by
        rw [entries]
        exact mem_update_erase consistent.linked.chainNodup
      refine ⟨none, cached', by rw [removed]; rfl, consistent',
        ⟨fun here => (chain.mp here).1, keys⟩, nofun, fun _ lone e here => ?_⟩
      obtain ⟨here, other⟩ := chain.mp here
      rw [keys]
      refine Bool.eq_false_iff.mpr fun equal' => other rfl ?_
      exact lone e here p mem equal' equal

theorem lookupPaths_spec (consistent : Consistent cached) (keys : List Key) {key : Key}
    (lone : Lone cached slot key) :
    ∃ found cached', lookupPaths requestTime slot (keys ++ [key]) cached = some (found, cached') ∧
      Consistent cached' ∧ (∀ e, found = some e → e ∈ cached'.entryMemory.live) ∧
      (found = none → ∀ e ∈ cached'.entries slot,
        entryEqual key (cached'.entryMemory.data e).key = false) := by
  induction keys generalizing cached with
  | nil =>
    obtain ⟨found, cached', run, consistent', -, live, none'⟩ :=
      @entryFind_spec _ cached slot requestTime consistent key
    refine ⟨found, cached', ?_, consistent', live, fun none => none' none lone⟩
    rw [List.nil_append, lookupPaths, run]
    cases found <;> rfl
  | cons first keys ih =>
    obtain ⟨found, cached', run, consistent', shrinks, live, -⟩ :=
      @entryFind_spec _ cached slot requestTime consistent first
    rw [List.cons_append, lookupPaths, run]
    cases found with
    | some e => exact ⟨some e, cached', rfl, consistent', live, nofun⟩
    | none => exact ih consistent' (lone.shrinks shrinks)

theorem hold_spec (consistent : Consistent cached) (live : entry ∈ cached.entryMemory.live) :
    ∃ cached', hold pid cached entry = some cached' ∧ Consistent cached' := by
  obtain ⟨linked, shared⟩ := consistent
  set e := cached.entryMemory.data entry with he
  set memory := cached.entryMemory.write entry { e with refcount := e.refcount + 1 } with hm
  have keys : ∀ any, (memory.data any).key = (cached.entryMemory.data any).key := by
    intro any
    by_cases own : any = entry
    · rw [own, hm, Memory.write_data_self]
    · rw [hm, Memory.write_data_of_ne own]
  have phps : ∀ any, (memory.data any).php = (cached.entryMemory.data any).php := by
    intro any
    by_cases own : any = entry
    · rw [own, hm, Memory.write_data_self]
    · rw [hm, Memory.write_data_of_ne own]
  refine ⟨{ cached with entryMemory := memory, holds := (pid, entry) :: cached.holds }, ?_, ?_, ?_⟩
  · simp only [hold, Memory.read_eq_some live, bind_eq_bind, bind_some, ← he, ← hm]
  · refine ⟨linked.linked, linked.deleted, nofun, linked.owned, linked.chainNodup, linked.oneSlot,
      linked.deletesNodup, linked.notBoth, ?_, ?_, ?_, linked.entriesCount, linked.deletesCount⟩
    · intro any one other here there equal
      simp only [keys] at equal
      exact linked.unequal here there equal
    · intro any mem
      have counted := linked.refcount mem
      dsimp only
      rw [List.map_cons, List.count_cons]
      by_cases own : any = entry
      · subst own
        rw [hm, Memory.write_data_self, if_pos (beq_self_eq_true _)]
        rw [← he] at counted
        push_cast
        omega
      · rw [hm, Memory.write_data_of_ne own, if_neg (by simpa using Ne.symm own), Nat.add_zero]
        exact counted
    · intro any e here
      rcases List.mem_cons.mp here with same | here
      · rw [(Prod.mk.inj same).2]
        exact live
      · exact linked.held here
  · exact shared.congr rfl phps rfl rfl shared.removals

theorem unholds_spec (stack : List (Nat × Nat)) (consistent : Consistent cached)
    (held : ∀ top, stack.count top ≤ cached.holds.count top) :
    ∃ cached', unholds pid stack cached = some cached' ∧ Consistent cached' := by
  induction stack generalizing cached with
  | nil => exact ⟨cached, rfl, consistent⟩
  | cons top stack ih =>
    rw [unholds]
    by_cases own : top.1 = pid
    · rw [if_pos own]
      have here : top ∈ cached.holds := by
        refine List.count_pos_iff.mp (Nat.lt_of_lt_of_le ?_ (held top))
        rw [List.count_cons_self]
        exact Nat.succ_pos _
      obtain ⟨linked, shared⟩ := consistent
      have live := @Linked.held _ _ cached linked top.1 top.2 here
      have perm : ((cached.holds.erase top).map Prod.snd).count top.2 + 1 =
          (cached.holds.map Prod.snd).count top.2 := by
        have := ((List.perm_cons_erase here).map Prod.snd).count_eq top.2
        rw [List.map_cons, List.count_cons_self] at this
        exact this.symm
      have others : ∀ any, any ≠ top.2 → ((cached.holds.erase top).map Prod.snd).count any =
          (cached.holds.map Prod.snd).count any := by
        intro any other
        have := ((List.perm_cons_erase here).map Prod.snd).count_eq any
        rw [List.map_cons, List.count_cons_of_ne (Ne.symm other)] at this
        exact this.symm
      set e := cached.entryMemory.data top.2 with he
      set memory := cached.entryMemory.write top.2 { e with refcount := e.refcount - 1 } with hm
      have keys : ∀ any, (memory.data any).key = (cached.entryMemory.data any).key := by
        intro any
        by_cases same : any = top.2
        · rw [same, hm, Memory.write_data_self]
        · rw [hm, Memory.write_data_of_ne same]
      have phps : ∀ any, (memory.data any).php = (cached.entryMemory.data any).php := by
        intro any
        by_cases same : any = top.2
        · rw [same, hm, Memory.write_data_self]
        · rw [hm, Memory.write_data_of_ne same]
      rw [Memory.read_eq_some live, bind_eq_bind, bind_some]
      refine ih ⟨⟨linked.linked, linked.deleted, nofun, linked.owned, linked.chainNodup,
        linked.oneSlot, linked.deletesNodup, linked.notBoth, ?_, ?_, ?_, linked.entriesCount,
        linked.deletesCount⟩, shared.congr rfl phps rfl rfl shared.removals⟩ fun any => ?_
      · intro any one other here there equal
        simp only [← he, ← hm, keys] at equal
        exact linked.unequal here there equal
      · intro any mem
        have counted := linked.refcount mem
        simp only [← he, ← hm]
        by_cases same : any = top.2
        · subst same
          rw [hm, Memory.write_data_self]
          rw [← he] at counted
          dsimp only
          omega
        · rw [hm, Memory.write_data_of_ne same, others any same]
          exact counted
      · exact fun here => linked.held (List.mem_of_mem_erase here)
      · have less := held any
        rw [List.count_cons] at less
        dsimp only
        rw [List.count_erase]
        omega
    · rw [if_neg own]
      refine ih consistent fun any => Nat.le_trans ?_ (held any)
      rw [List.count_cons]
      exact Nat.le_add_right _ _

end PhpExts.XCache.PhpCache
