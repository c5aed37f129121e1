import PhpExts.XCache.PhpEntries

/-!
# Runs of processes that share compiled files

A run is a list of actions of processes, whose request times are those of the clock when they
have started. As long as every action is `Safe`, the cache stays consistent in all states
(`Consistent.run`): records and their references (`sharesSoundly_of_safe`), entries and those
who hold them (`holdsSafely_of_safe`).

What is not safe are stores of what another process has stored since the lookup, or of which
only the first half finds memory, and a collection by a request time that is an hour
ahead of the one by which an entry that is held has been removed.
-/

namespace PhpExts.XCache.PhpCache

open PhpExts.Library
open Option (bind_eq_bind bind_some)

variable {config : Config} {cached cached' : Cached config} {slot : Fin config.slots}
  {entry : Nat} {requestTime : Int} {pid : Nat}

theorem Consistent.settings (consistent : Consistent cached)
    (compiling lastGcDeletes lastGcExpires : Int) :
    Consistent { cached with compiling, lastGcDeletes, lastGcExpires } := by
  obtain ⟨⟨h1, h2, -, h4, h5, h6, h7, h8, h9, h10, h11, h12, h13⟩, shared⟩ := consistent
  exact ⟨⟨h1, h2, nofun, h4, h5, h6, h7, h8, h9, h10, h11, h12, h13⟩,
    shared.congr rfl (fun _ => rfl) rfl rfl shared.removals⟩

theorem applyChain_spec (chain : List Nat) (consistent : Consistent cached) (nodup : chain.Nodup)
    (inside : ∀ e ∈ chain, e ∈ cached.entries slot) :
    ∃ cached', applyChain requestTime slot chain cached = some cached' ∧ Consistent cached' := by
  induction chain generalizing cached with
  | nil => exact ⟨cached, rfl, consistent⟩
  | cons p chain ih =>
    obtain ⟨fresh, nodup⟩ := List.nodup_cons.mp nodup
    obtain ⟨here, inside⟩ := List.forall_mem_cons.mp inside
    have live := consistent.linked.linked here
    rw [applyChain, Memory.read_eq_some live, bind_eq_bind, bind_some]
    by_cases expired : (cached.entryMemory.data p).atime + config.ttl < requestTime
    · rw [if_pos expired]
      have linked := consistent.linked.unlink here ((p, p) :: cached.removals)
      have shared : Shared none
          { unlink cached slot p with removals := (p, p) :: cached.removals } :=
        consistent.shared.congr rfl (fun _ => rfl) rfl rfl
          (List.forall_mem_cons.mpr ⟨rfl, consistent.shared.removals⟩)
      obtain ⟨cached', freed, consistent', entries, -⟩ :=
        @entryFree_spec _ { unlink cached slot p with removals := (p, p) :: cached.removals } p
          requestTime linked shared
      rw [freed, bind_eq_bind, bind_some]
      refine ih consistent' nodup fun e mem => ?_
      rw [entries]
      refine (mem_update_erase consistent.linked.chainNodup).mpr
        ⟨inside e mem, fun _ same => ?_⟩
      exact fresh (same ▸ mem)
    · rw [if_neg expired]
      exact ih consistent nodup inside

theorem foldlM_slots {step : Cached config → Fin config.slots → Option (Cached config)}
    (keeps : ∀ {cached slot}, Consistent cached →
      ∃ cached', step cached slot = some cached' ∧ Consistent cached')
    (slots : List (Fin config.slots)) (consistent : Consistent cached) :
    ∃ cached', slots.foldlM step cached = some cached' ∧ Consistent cached' := by
  induction slots generalizing cached with
  | nil => exact ⟨cached, rfl, consistent⟩
  | cons slot slots ih =>
    obtain ⟨next, run, consistent'⟩ := @keeps cached slot consistent
    rw [List.foldlM_cons, run]
    exact ih consistent'

theorem gcExpires_spec (consistent : Consistent cached) :
    ∃ cached', gcExpires requestTime cached = some cached' ∧ Consistent cached' := by
  unfold gcExpires
  by_cases due : cached.lastGcExpires + config.gcInterval ≤ requestTime
  · rw [if_pos due]
    refine foldlM_slots (fun {cached slot} consistent => ?_) _
      (consistent.settings cached.compiling cached.lastGcDeletes requestTime)
    exact applyChain_spec _ consistent (consistent.linked.chainNodup slot) fun _ mem => mem
  · rw [if_neg due]
    exact ⟨cached, rfl, consistent⟩

def Overdue (requestTime : Int) (cached : Cached config) : Prop :=
  ∃ pid entry, (pid, entry) ∈ cached.holds ∧ entry ∈ cached.deletes ∧
    3600 < requestTime - (cached.entryMemory.data entry).dtime

theorem gcDelete_spec (deletes : List Nat) (consistent : Consistent cached) (nodup : deletes.Nodup)
    (inside : ∀ e ∈ deletes, e ∈ cached.deletes)
    (unheld : ∀ e ∈ deletes, 3600 < requestTime - (cached.entryMemory.data e).dtime →
      (cached.entryMemory.data e).refcount = 0) :
    ∃ cached', gcDelete requestTime deletes cached = some cached' ∧ Consistent cached' := by
  induction deletes generalizing cached with
  | nil => exact ⟨cached, rfl, consistent⟩
  | cons p deletes ih =>
    obtain ⟨fresh, nodup⟩ := List.nodup_cons.mp nodup
    obtain ⟨here, inside⟩ := List.forall_mem_cons.mp inside
    obtain ⟨safe, unheld⟩ := List.forall_mem_cons.mp unheld
    have live := consistent.linked.deleted here
    have same : (if 3600 < requestTime - (cached.entryMemory.data p).dtime then 0
        else (cached.entryMemory.data p).refcount) = (cached.entryMemory.data p).refcount := by
      split_ifs with late
      · exact (safe late).symm
      · rfl
    have unwritten :
        cached.entryMemory.write p (cached.entryMemory.data p) = cached.entryMemory := by
      unfold Memory.write
      rw [Function.update_eq_self]
    rw [gcDelete, Memory.read_eq_some live, bind_eq_bind, bind_some]
    simp only [same, unwritten]
    by_cases free : (cached.entryMemory.data p).refcount = 0
    · rw [if_pos free]
      have linked := consistent.linked.undelete here ((p, p) :: cached.removals)
      have shared : Shared none { cached with
          deletes := cached.deletes.erase p
          deletesCount := cached.deletesCount - 1
          removals := (p, p) :: cached.removals } :=
        consistent.shared.congr rfl (fun _ => rfl) rfl rfl
          (List.forall_mem_cons.mpr ⟨rfl, consistent.shared.removals⟩)
      obtain ⟨cached', freed, shared', frame⟩ := entryFreeReal_spec shared live
      have linked' := linked.free free cached'.phpMemory cached'.phps cached'.removals
      rw [← frame] at linked'
      rw [freed]
      refine ih ⟨linked', shared'⟩ nodup (fun e mem => ?_) fun e mem => ?_
      · rw [frame]
        have other : e ≠ p := fun same => fresh (same ▸ mem)
        exact (List.mem_erase_of_ne other).mpr (inside e mem)
      · rw [frame]
        exact unheld e mem
    · rw [if_neg free]
      exact ih consistent nodup inside unheld

theorem gcDeletes_spec (consistent : Consistent cached) (timely : ¬ Overdue requestTime cached) :
    ∃ cached', gcDeletes requestTime cached = some cached' ∧ Consistent cached' := by
  unfold gcDeletes
  by_cases due : cached.deletes ≠ [] ∧ 120 < requestTime - cached.lastGcDeletes
  · rw [if_pos due]
    refine gcDelete_spec _ (consistent.settings cached.compiling requestTime cached.lastGcExpires)
      consistent.linked.deletesNodup (fun _ mem => mem) fun e mem late => ?_
    have counted := consistent.linked.refcount (consistent.linked.deleted mem)
    dsimp only
    rw [counted, List.count_eq_zero.mpr]
    · rfl
    · intro held
      obtain ⟨⟨pid, e⟩, onStack, rfl⟩ := List.mem_map.mp held
      exact timely ⟨pid, e, onStack, mem, late⟩
  · rw [if_neg due]
    exact ⟨cached, rfl, consistent⟩

theorem clearChain_spec (chain : List Nat) (consistent : Consistent cached) (nodup : chain.Nodup)
    (inside : ∀ e ∈ chain, e ∈ cached.entries slot) :
    ∃ cached', clearChain requestTime slot chain cached = some cached' ∧ Consistent cached' ∧
      ∀ e ∈ cached'.entries slot, e ∈ cached.entries slot ∧ e ∉ chain := by
  induction chain generalizing cached with
  | nil => exact ⟨cached, rfl, consistent, fun e mem => ⟨mem, List.not_mem_nil⟩⟩
  | cons p chain ih =>
    obtain ⟨fresh, nodup⟩ := List.nodup_cons.mp nodup
    obtain ⟨here, inside⟩ := List.forall_mem_cons.mp inside
    obtain ⟨next, removed, consistent', entries, -⟩ :=
      @entryRemove_spec _ cached slot p requestTime consistent here
    have chain' : ∀ {e}, e ∈ next.entries slot ↔ e ∈ cached.entries slot ∧ e ≠ p := by
      intro e
      rw [entries, mem_update_erase consistent.linked.chainNodup]
      simp only [true_imp_iff]
    obtain ⟨cached', run, consistent'', rest⟩ := ih consistent' nodup fun e mem =>
      chain'.mpr ⟨inside e mem, fun same => fresh (same ▸ mem)⟩
    refine ⟨cached', ?_, consistent'', fun e mem => ?_⟩
    · rw [clearChain, removed, bind_eq_bind, bind_some, run]
    · obtain ⟨before, notIn⟩ := rest e mem
      obtain ⟨before, other⟩ := chain'.mp before
      exact ⟨before, fun both => (List.mem_cons.mp both).elim other notIn⟩

theorem clear_spec (consistent : Consistent cached) :
    ∃ cached', clear requestTime cached = some cached' ∧ Consistent cached' := by
  refine foldlM_slots (fun {cached slot} consistent => ?_) _ consistent
  obtain ⟨cached', run, consistent', rest⟩ := @clearChain_spec _ cached slot requestTime
    (cached.entries slot) consistent (consistent.linked.chainNodup slot) fun _ mem => mem
  have none : cached'.entries slot = [] :=
    List.eq_nil_iff_forall_not_mem.mpr fun e mem => (rest e mem).2 (rest e mem).1
  refine ⟨cached', ?_, consistent'⟩
  rw [run, bind_eq_bind, bind_some, ← none, Function.update_eq_self]

/-! ## The two locked sections of a compilation -/

theorem lookup_spec (consistent : Consistent cached) {compiler : Compiler config}
    (lone : Lone cached compiler.slot compiler.newEntry) (digest : Option Digest)
    (memory : Option Nat) (bails : Bool) :
    ∃ found cached', lookup pid requestTime compiler digest memory bails cached =
      some (found, cached') ∧ Consistent cached' := by
  obtain ⟨stored, next, run, consistent', live, absent⟩ := @lookupPaths_spec _ cached compiler.slot
    requestTime consistent (compiler.paths.map fun name => { compiler.newEntry with name })
    compiler.newEntry lone
  unfold lookup
  simp only [run, bind_eq_bind, bind_some]
  cases stored with
  | some e =>
    obtain ⟨held, hold, consistent''⟩ := @hold_spec _ next e pid consistent' (live e rfl)
    exact ⟨.done, held, by simp only [hold, bind_some], consistent''⟩
  | none =>
    cases digest with
    | none => exact ⟨_, next, rfl, consistent'⟩
    | some digest =>
      rcases phpFind_spec consistent'.shared digest with ⟨php, found, phpLive⟩ | ⟨found, -⟩
      · simp only [found, bind_some]
        cases room : allocates next.entryMemory memory with
        | none => exact ⟨_, next, rfl, consistent'⟩
        | some e =>
          obtain ⟨after, stored, linked, shared, here⟩ :=
            @entryStore_spec _ next compiler.slot e php requestTime none consistent'.linked
              consistent'.shared (.inl rfl) phpLive (not_mem_of_allocates room)
              compiler.newEntry (absent rfl)
          obtain ⟨held, hold, consistent''⟩ := @hold_spec _ after e pid ⟨linked, shared⟩ here
          exact ⟨.done, held, by simp only [stored, hold, bind_some], consistent''⟩
      · simp only [found, bind_some]
        by_cases soon : requestTime - next.compiling < 30
        · rw [if_pos soon]
          exact ⟨_, next, rfl, consistent'⟩
        · rw [if_neg soon]
          exact ⟨_, _, rfl,
            consistent'.settings requestTime next.lastGcDeletes next.lastGcExpires⟩

/-- What is stored is not there yet, and both of its halves find memory or the first does
not. -/
structure New (cached : Cached config) (compiler : Compiler config) (digest : Digest)
    (phpRoom entryRoom : Option Nat) : Prop where
  digest : ∀ php ∈ cached.phpMemory.live, (cached.phpMemory.data php).digest ≠ digest
  entry : ∀ e ∈ cached.entries compiler.slot,
    entryEqual compiler.newEntry (cached.entryMemory.data e).key = false
  room : (allocates cached.phpMemory phpRoom).isSome →
    (allocates cached.entryMemory entryRoom).isSome

theorem store_spec (consistent : Consistent cached) {compiler : Compiler config} {digest : Digest}
    {phpRoom entryRoom : Option Nat} (new : New cached compiler digest phpRoom entryRoom) :
    ∃ cached', store pid requestTime compiler digest phpRoom entryRoom cached = some cached' ∧
      Consistent cached' := by
  unfold store
  cases first : allocates cached.phpMemory phpRoom with
  | none => exact ⟨cached, rfl, consistent⟩
  | some php =>
    obtain ⟨e, second⟩ := Option.isSome_iff_exists.mp (new.room (by rw [first]; rfl))
    have fresh := not_mem_of_allocates first
    have shared := phpStore_spec consistent.shared fresh new.digest
    obtain ⟨h1, h2, -, h4, h5, h6, h7, h8, h9, h10, h11, h12, h13⟩ := consistent.linked
    have linked : Linked none (phpStore cached php digest) :=
      ⟨h1, h2, nofun, h4, h5, h6, h7, h8, h9, h10, h11, h12, h13⟩
    obtain ⟨after, stored, linked', shared', here⟩ :=
      @entryStore_spec _ (phpStore cached php digest) compiler.slot e php requestTime (some php)
        linked shared (.inr rfl) (Finset.mem_insert_self _ _) (not_mem_of_allocates second)
        compiler.newEntry new.entry
    obtain ⟨held, hold, consistent'⟩ := @hold_spec _ after e pid ⟨linked', shared'⟩ here
    refine ⟨held, ?_, consistent'⟩
    simp only [phpStore] at stored ⊢
    rw [second]
    simp only [stored, bind_eq_bind, bind_some, hold]

def Safe (system : System config) : Action config → Prop
  | .lookup pid _ _ _ => ∀ compiler, (system.process pid).status = .checked compiler →
      Lone system.cached compiler.slot compiler.newEntry
  | .store pid compiled phpRoom entryRoom => ∀ compiler digest,
      (system.process pid).status = .compiling compiler digest → compiled = true →
        New system.cached compiler digest phpRoom entryRoom
  | .gcDeletes pid => ¬ Overdue (system.process pid).requestTime system.cached
  | _ => True

def SafeRun (system : System config) : List (Action config) → Prop
  | [] => True
  | action :: actions =>
    Safe system action ∧ ∀ next, system.act action = some next → SafeRun next actions

/-- **A safe action is defined and keeps the cache consistent.** -/
theorem Consistent.act {system : System config} (consistent : Consistent system.cached)
    {action : Action config} (safe : Safe system action) :
    ∃ next, system.act action = some next ∧ Consistent next.cached := by
  cases action with
  | tick seconds => exact ⟨_, rfl, consistent⟩
  | start pid => exact ⟨_, rfl, consistent⟩
  | check pid compiler =>
    cases status : (system.process pid).status with
    | idle =>
      by_cases soon : (system.process pid).requestTime - system.cached.compiling < 30
      · exact ⟨system, by simp only [System.act, status, soon, if_true], consistent⟩
      · exact ⟨system.setStatus pid (.checked compiler),
          by simp only [System.act, status, soon, if_false], consistent⟩
    | checked | compiling | stored =>
      exact ⟨system, by simp only [System.act, status], consistent⟩
  | lookup pid digest memory bails =>
    cases status : (system.process pid).status with
    | checked compiler =>
      obtain ⟨found, cached', run, consistent'⟩ := @lookup_spec _ system.cached
        (system.process pid).requestTime pid consistent compiler (safe compiler status) digest
        memory bails
      simp only [System.act, status, run, bind_eq_bind, bind_some]
      cases found <;> exact ⟨_, rfl, consistent'⟩
    | idle | compiling | stored =>
      exact ⟨system, by simp only [System.act, status], consistent⟩
  | store pid compiled phpRoom entryRoom =>
    cases status : (system.process pid).status with
    | compiling compiler digest =>
      cases compiled with
      | true =>
        obtain ⟨cached', run, consistent'⟩ := @store_spec _ system.cached
          (system.process pid).requestTime pid consistent compiler digest phpRoom entryRoom
          (safe compiler digest status rfl)
        simp only [System.act, status, if_true, run, bind_eq_bind, bind_some]
        exact ⟨_, rfl, consistent'⟩
      | false =>
        simp only [System.act, status, Bool.false_eq_true, if_false, bind_eq_bind,
          bind_some]
        exact ⟨_, rfl, consistent⟩
    | idle | checked | stored =>
      exact ⟨system, by simp only [System.act, status], consistent⟩
  | finish pid =>
    cases status : (system.process pid).status with
    | stored =>
      simp only [System.act, status]
      exact ⟨_, rfl, consistent.settings 0 system.cached.lastGcDeletes
        system.cached.lastGcExpires⟩
    | idle | checked | compiling =>
      exact ⟨system, by simp only [System.act, status], consistent⟩
  | unhold pid =>
    obtain ⟨cached', run, consistent'⟩ := @unholds_spec _ system.cached pid system.cached.holds
      consistent fun _ => Nat.le_refl _
    exact ⟨{ system with cached := cached' }, by simp [System.act, System.withCached, run],
      consistent'⟩
  | gcExpires pid =>
    obtain ⟨cached', run, consistent'⟩ :=
      @gcExpires_spec _ system.cached (system.process pid).requestTime consistent
    exact ⟨{ system with cached := cached' }, by simp [System.act, System.withCached, run],
      consistent'⟩
  | gcDeletes pid =>
    obtain ⟨cached', run, consistent'⟩ :=
      @gcDeletes_spec _ system.cached (system.process pid).requestTime consistent safe
    exact ⟨{ system with cached := cached' }, by simp [System.act, System.withCached, run],
      consistent'⟩
  | clear pid =>
    obtain ⟨cached', run, consistent'⟩ :=
      @clear_spec _ system.cached (system.process pid).requestTime consistent
    exact ⟨{ system with cached := cached' }, by simp [System.act, System.withCached, run],
      consistent'⟩

theorem Consistent.run {system : System config} {actions : List (Action config)}
    (consistent : Consistent system.cached) (safe : SafeRun system actions) :
    ∃ last, system.run actions = some last ∧ Consistent last.cached := by
  induction actions generalizing system with
  | nil => exact ⟨system, rfl, consistent⟩
  | cons action actions ih =>
    obtain ⟨next, act, consistent'⟩ := consistent.act safe.1
    rw [System.run, act, bind_eq_bind, bind_some]
    exact ih consistent' (safe.2 next act)

def System.initial (config : Config) (clock : Int) : System config where
  cached :=
    { compiling := 0, entries := fun _ => [], entriesCount := 0, phps := fun _ => [], deletes := []
      deletesCount := 0, lastGcDeletes := 0, lastGcExpires := 0
      entryMemory := ⟨∅, fun _ => ⟨⟨[], 0, 0, 0, 0⟩, 0, 0, 0, 0⟩⟩
      phpMemory := ⟨∅, fun _ => ⟨[], 0⟩⟩, holds := [], removals := [] }
  process := fun _ => ⟨clock, .idle⟩
  clock := clock

theorem consistent_initial (config : Config) (clock : Int) :
    Consistent (System.initial config clock).cached := by
  refine ⟨⟨nofun, nofun, nofun, nofun, fun _ => List.nodup_nil, nofun, List.nodup_nil, nofun, nofun,
    nofun, nofun, ?_, rfl⟩, ⟨nofun, ?_, fun _ => List.nodup_nil, nofun, nofun, nofun, nofun⟩⟩
  · exact (Finset.sum_eq_zero fun _ _ => rfl).symm
  · exact fun {_ _} => ⟨nofun, nofun⟩

/-! ## Records and their references -/

/-- The entries that point to a record, linked or awaiting their deletion. -/
def pointers (cached : Cached config) (php : Nat) : Nat :=
  ∑ slot, (cached.entries slot).countP (fun e => (cached.entryMemory.data e).php = php) +
    cached.deletes.countP fun e => (cached.entryMemory.data e).php = php

/-- Records of sources are shared soundly: there is one for a digest, it counts the entries
that point to it, of which there are some, and what is freed has been unlinked. -/
structure SharesSoundly (cached : Cached config) : Prop where
  digest : ∀ {slot slot' php other}, php ∈ cached.phps slot → other ∈ cached.phps slot' →
    (cached.phpMemory.data php).digest = (cached.phpMemory.data other).digest → php = other
  nodup : ∀ slot, (cached.phps slot).Nodup
  removals : ∀ removal ∈ cached.removals, removal.1 = removal.2
  refcount : ∀ {slot php}, php ∈ cached.phps slot →
    (cached.phpMemory.data php).refcount = pointers cached php
  used : ∀ {slot php}, php ∈ cached.phps slot → (cached.phpMemory.data php).refcount ≠ 0
  entryPhp : ∀ {entry}, (∃ slot, entry ∈ cached.entries slot) ∨ entry ∈ cached.deletes →
    (cached.entryMemory.data entry).php ∈ cached.phpMemory.live

theorem Linked.number_eq (linked : Linked none cached) (php : Nat) :
    cached.entryMemory.number (fun e => e.php = php) = pointers cached php := by
  set points : Nat → Bool := fun e => (cached.entryMemory.data e).php = php
  have card : ∀ {chain : List Nat}, chain.Nodup →
      (chain.toFinset.filter fun e => points e).card = chain.countP points := by
    intro chain nodup
    rw [← List.toFinset_filter, List.toFinset_card_of_nodup (nodup.filter _),
      List.countP_eq_length_filter]
  have split : cached.entryMemory.live =
      (Finset.univ.biUnion fun slot => (cached.entries slot).toFinset) ∪
        cached.deletes.toFinset := by
    ext e
    simp only [Finset.mem_union, Finset.mem_biUnion, Finset.mem_univ, true_and, List.mem_toFinset]
    constructor
    · intro live
      rcases linked.owned live with chain | deleted | loose
      · exact .inl chain
      · exact .inr deleted
      · cases loose
    · rintro (⟨slot, mem⟩ | mem)
      · exact linked.linked mem
      · exact linked.deleted mem
  have apart : Disjoint ((Finset.univ.biUnion fun slot => (cached.entries slot).toFinset).filter
      fun e => points e) (cached.deletes.toFinset.filter fun e => points e) := by
    refine Finset.disjoint_left.mpr fun e mem member' => ?_
    simp only [Finset.mem_filter, Finset.mem_biUnion, Finset.mem_univ, true_and,
      List.mem_toFinset] at mem member'
    obtain ⟨⟨slot, here⟩, -⟩ := mem
    exact linked.notBoth here member'.1
  have slots : ∀ slot ∈ Finset.univ, ∀ slot' ∈ Finset.univ, slot ≠ slot' →
      Disjoint ((cached.entries slot).toFinset.filter fun e => points e)
        ((cached.entries slot').toFinset.filter fun e => points e) := by
    intro slot _ slot' _ differ
    refine Finset.disjoint_left.mpr fun e mem member' => ?_
    simp only [Finset.mem_filter, List.mem_toFinset] at mem member'
    exact differ (linked.oneSlot mem.1 member'.1)
  change (cached.entryMemory.live.filter fun e => points e).card = _
  rw [split, Finset.filter_union, Finset.card_union_of_disjoint apart, Finset.filter_biUnion,
    Finset.card_biUnion slots, card linked.deletesNodup, pointers]
  exact congrArg (· + _) (Finset.sum_congr rfl fun slot _ => card (linked.chainNodup slot))

/-- **In a run of safe actions, in all states, records are shared soundly, and nothing undefined
happens.** -/
theorem sharesSoundly_of_safe {clock : Int} {actions : List (Action config)}
    (safe : SafeRun (.initial config clock) actions) :
    ∃ last, (System.initial config clock).run actions = some last ∧ SharesSoundly last.cached := by
  obtain ⟨last, run, linked, shared⟩ := (consistent_initial config clock).run safe
  refine ⟨last, run, ?_, shared.nodup, shared.removals, ?_, ?_, ?_⟩
  · exact fun here there => shared.digest (shared.linked.mp here).1 (shared.linked.mp there).1
  · intro slot php member
    rw [shared.refcount (shared.linked.mp member).1, linked.number_eq]
  · exact fun member => shared.used (shared.linked.mp member).1 nofun
  · rintro entry (⟨slot, member⟩ | member)
    · exact shared.entryPhp (linked.linked member)
    · exact shared.entryPhp (linked.deleted member)

def oneSlot : Config := ⟨1, 1, fun _ => 0, 0, 0⟩

def script : Compiler oneSlot := ⟨⟨0, Nat.one_pos⟩, [], ⟨[47, 97], 7, 1, 500, 20⟩⟩

theorem sharesSoundly_found : ∃ last, (System.initial oneSlot 1000).run [.start 1, .check 1 script,
      .lookup 1 (some [1]) none false, .store 1 true (some 0) (some 0), .finish 1, .start 2,
      .check 2 script, .lookup 2 (some [1]) none false] = some last ∧
      SharesSoundly last.cached := by
  refine sharesSoundly_of_safe ⟨trivial, fun _ act => ?_⟩
  cases act
  refine ⟨trivial, fun _ act => ?_⟩
  cases act
  refine ⟨fun _ _ => nofun, fun _ act => ?_⟩
  cases act
  refine ⟨fun compiler digest status _ => ?_, fun _ act => ?_⟩
  · cases status
    exact ⟨nofun, nofun, fun _ => rfl⟩
  cases act
  refine ⟨trivial, fun _ act => ?_⟩
  cases act
  refine ⟨trivial, fun _ act => ?_⟩
  cases act
  refine ⟨trivial, fun _ act => ?_⟩
  cases act
  refine ⟨fun compiler status e member other member' _ _ => ?_, fun _ _ => trivial⟩
  cases status
  exact (List.mem_singleton.mp member).trans (List.mem_singleton.mp member').symm

/-- Another process has waited half a minute for the compilation and stores the same source
again. -/
theorem not_sharesSoundly_late :
    ¬ ∃ last, (System.initial oneSlot 1000).run [.start 1, .check 1 script,
      .lookup 1 (some [1]) none false, .tick 30, .start 2, .check 2 script,
      .lookup 2 (some [1]) none false, .store 1 true (some 0) (some 0),
      .store 2 true (some 1) (some 1)] = some last ∧ SharesSoundly last.cached := by
  rintro ⟨last, run, shares⟩
  cases run
  have same := @SharesSoundly.digest _ _ shares ⟨0, Nat.one_pos⟩ ⟨0, Nat.one_pos⟩ 0 1 (by decide)
    (by decide) rfl
  exact absurd same (by decide)

/-! ## Entries and their holds -/

/-- Entries are held safely: they count the holds on them, are not freed while they are held, and
are counted where they are. -/
structure HoldsSafely (cached : Cached config) : Prop where
  refcount : ∀ {entry}, entry ∈ cached.entryMemory.live →
    (cached.entryMemory.data entry).refcount = (cached.holds.map Prod.snd).count entry
  held : ∀ {pid entry}, (pid, entry) ∈ cached.holds → entry ∈ cached.entryMemory.live
  entriesCount : cached.entriesCount = ∑ slot, ((cached.entries slot).length : Int)
  deletesCount : cached.deletesCount = cached.deletes.length

/-- **From any consistent state, in a run of safe actions, entries are held safely in all
states, and none is freed twice.** -/
theorem holdsSafely_of_safe {system : System config} {actions : List (Action config)}
    (consistent : Consistent system.cached) (safe : SafeRun system actions) :
    ∃ last, system.run actions = some last ∧ HoldsSafely last.cached := by
  obtain ⟨last, run, linked, -⟩ := consistent.run safe
  exact ⟨last, run, linked.refcount, linked.held, linked.entriesCount, linked.deletesCount⟩

theorem holdsSafely_dropped : ∃ last, (System.initial oneSlot 1000).run [.start 1, .check 1 script,
      .lookup 1 (some [1]) none false, .store 1 true (some 0) (some 0), .finish 1, .unhold 1,
      .gcDeletes 1] = some last ∧ HoldsSafely last.cached := by
  refine holdsSafely_of_safe (consistent_initial _ _) ⟨trivial, fun _ act => ?_⟩
  cases act
  refine ⟨trivial, fun _ act => ?_⟩
  cases act
  refine ⟨fun _ _ => nofun, fun _ act => ?_⟩
  cases act
  refine ⟨fun compiler digest status _ => ?_, fun _ act => ?_⟩
  · cases status
    exact ⟨nofun, nofun, fun _ => rfl⟩
  cases act
  refine ⟨trivial, fun _ act => ?_⟩
  cases act
  refine ⟨trivial, fun _ act => ?_⟩
  cases act
  refine ⟨?_, fun _ _ => trivial⟩
  rintro ⟨pid, entry, held, -⟩
  cases held

def elapsed : List (Action config) → Nat
  | [] => 0
  | .tick seconds :: actions => seconds + elapsed actions
  | _ :: actions => elapsed actions

def removal : List (Action oneSlot) :=
  [.start 1, .tick 3000, .start 2, .check 2 script, .lookup 2 (some [1]) none false,
    .store 2 true (some 0) (some 0), .finish 2,
    .check 1 { script with newEntry := { script.newEntry with mtime := 3900 } },
    .lookup 1 (some [2]) none false]

/-- Ten minutes later a collection frees the entry that process 2 still holds. -/
theorem not_holdsSafely_old :
    elapsed ([.tick 601, .start 3, .gcDeletes 3] : List (Action oneSlot)) ≤ 3600 ∧
      ¬ ∃ last, (System.initial oneSlot 1000).run (removal ++ [.tick 601, .start 3, .gcDeletes 3]) =
        some last ∧ HoldsSafely last.cached := by
  refine ⟨by decide, ?_⟩
  rintro ⟨last, run, holds⟩
  rw [removal] at run
  cases run
  exact absurd (@HoldsSafely.held _ _ holds 2 0 (by decide)) (by decide)

end PhpExts.XCache.PhpCache
