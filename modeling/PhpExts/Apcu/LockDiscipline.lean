import PhpExts.Apcu.Locking
import PhpExts.Apcu.WellFormed
import Mathlib

/-!
# The discipline of the header's lock

A step is disciplined when no process takes the lock that it has, no slot is unlinked
or destroyed by a pass over the garbage list or an expunge while a process stands
between its walk and its write, and the cell that a process writes through is still in
the chain.

In a run in which every allocation under the lock is served at its first attempt all
steps are disciplined: `Guarded` holds, since then no expunge runs inside an insertion.
When one is not served, the process goes on to take the lock that it has.
-/

namespace PhpExts.Apcu.Locking

open PhpExts.Zend

variable {ι V M : Type}

/-! ## Disciplined runs -/

section

variable [DecidableEq ι] (config : Config V) (memory : Memory M)

def Disciplined (system : System ι V M) : Event ι V → Prop
  | .lock p => (system.phase p).holds = false
  | .body p _ =>
    match system.phase p with
    | .inserting _ | .expunging _ _ _ => ∀ q, (system.phase q).target = none
    | .placing insertion place _ => CellIntact config system.cache insertion place
    | _ => True
  | _ => True

/-- An attempt that is made under the lock is served. -/
def served (system : System ι V M) : Event ι V → Bool
  | .attempt p _ _ =>
    match system.phase p with
    | .allocating insertion job search => job.place.isNone ||
        match search.remaining with
        | [] => false
        | segment :: _ =>
          (memory.allocate insertion.value.pool segment (job.request insertion) fragment
            system.memory).isSome
    | _ => true
  | _ => true

/-- The steps of a run, one after the other. -/
def run (system : System ι V M) (events : List (Event ι V)) : Option (System ι V M) :=
  events.foldlM (step config memory) system

def Along (holds : System ι V M → Event ι V → Prop) (system : System ι V M) :
    List (Event ι V) → Prop
  | [] => True
  | event :: events =>
    match step config memory system event with
    | some system' => holds system event ∧ Along holds system' events
    | none => True

instance Along.decidable (holds : System ι V M → Event ι V → Prop)
    [∀ system event, Decidable (holds system event)] (system : System ι V M)
    (events : List (Event ι V)) : Decidable (Along config memory holds system events) :=
  match events with
  | [] => .isTrue trivial
  | event :: events =>
    match next : step config memory system event with
    | some system' =>
      have := Along.decidable holds system' events
      decidable_of_iff (holds system event ∧ Along config memory holds system' events)
        (by rw [Along, next])
    | none => .isTrue (by rw [Along, next]; trivial)

theorem Along.of_run {holds : System ι V M → Event ι V → Prop} {front back : List (Event ι V)}
    {event : Event ι V} {system reached : System ι V M}
    (along : Along config memory holds system (front ++ event :: back))
    (runs : run config memory system front = some reached)
    (goesOn : (step config memory reached event).isSome = true) : holds reached event := by
  induction front generalizing system with
  | nil =>
    cases runs
    obtain ⟨next, isNext⟩ := Option.isSome_iff_exists.mp goesOn
    rw [List.nil_append, Along, isNext] at along
    exact along.1
  | cons first front ih =>
    rw [run, List.foldlM_cons] at runs
    rw [List.cons_append, Along] at along
    cases next : step config memory system first with
    | none => rw [next] at runs; cases runs
    | some system' =>
      rw [next] at runs
      simp only [next] at along
      exact ih along.2 runs

def System.start (cache : Cache V) (m : M) (last : ι → Nat) : System ι V M :=
  ⟨cache, false, none, 0, m, last, fun _ => .outside⟩

end

def Phase.nested : Phase V → Bool
  | .failed _ job _ | .waiting (.expunge _ job _) | .expunging _ job _ | .expunged _ job _ =>
    job.place.isSome
  | _ => false

/-- The process that is where it has the lock is the one that has it, no expunge runs inside
an insertion, and the cells of all walks are intact. -/
structure Guarded (config : Config V) (system : System ι V M) : Prop where
  holds : ∀ p, (system.phase p).holds = true ↔ system.writer = some p
  direct : ∀ p, (system.phase p).nested = false
  intact : ∀ p insertion place, (system.phase p).target = some (insertion, place) →
    CellIntact config system.cache insertion place

theorem Phase.holds_of_target {phase : Phase V} {target : Insertion V × Place V}
    (walking : phase.target = some target) : phase.holds = true := by
  have isSome : ∀ (insertion : Insertion V) (job : Job V),
      job.place.map (insertion, ·) = some target → job.place.isSome = true := by
    intro insertion job eq
    rw [← Option.isSome_map (f := fun place => (insertion, place)), eq]
    rfl
  unfold Phase.target at walking
  unfold Phase.holds
  split at walking <;> first | exact isSome _ _ walking | rfl | cases walking

def SamePools (before after : Cache V) : Prop :=
  ∀ i, (after.slots i).map (·.value.pool) = (before.slots i).map (·.value.pool)

theorem SamePools.refl (cache : Cache V) : SamePools cache cache := fun _ => rfl

theorem CellIntact.of_samePools {config : Config V} {before after : Cache V}
    {insertion : Insertion V} {place : Place V} (same : SamePools before after)
    (intact : CellIntact config before insertion place) : CellIntact config after insertion place :=
  (same _).trans intact

theorem Guarded.change [DecidableEq ι] {config : Config V} {system system' : System ι V M}
    (guarded : Guarded config system) (p : ι) (phase : Phase V)
    (phases : system'.phase = Function.update system.phase p phase)
    (holds : phase.holds = true ↔ system'.writer = some p)
    (others : ∀ q, q ≠ p → (system'.writer = some q ↔ system.writer = some q))
    (direct : phase.nested = false)
    (intact : ∀ insertion place, phase.target = some (insertion, place) →
      CellIntact config system'.cache insertion place)
    (kept : SamePools system.cache system'.cache ∨ system.writer = some p) :
    Guarded config system' := by
  have own : system'.phase p = phase := by rw [phases, Function.update_self]
  have other : ∀ q, q ≠ p → system'.phase q = system.phase q := fun q apart => by
    rw [phases, Function.update_of_ne apart]
  refine ⟨fun q => ?_, fun q => ?_, fun q insertion place walking => ?_⟩
  · by_cases same : q = p
    · rw [same, own]
      exact holds
    · rw [other q same, others q same]
      exact guarded.holds q
  · by_cases same : q = p
    · rw [same, own]
      exact direct
    · rw [other q same]
      exact guarded.direct q
  · by_cases same : q = p
    · rw [same, own] at walking
      exact intact insertion place walking
    · rw [other q same] at walking
      rcases kept with samePools | held
      · exact (guarded.intact q insertion place walking).of_samePools samePools
      · have holder := (guarded.holds q).mp (Phase.holds_of_target walking)
        exact absurd (Option.some.inj (holder.symm.trans held)) same

section

variable [DecidableEq ι] {config : Config V} {memory : Memory M} {system : System ι V M} {p : ι}

variable {system' : System ι V M}

theorem Guarded.move_free (guarded : Guarded config system)
    (phase : Phase V) (phases : system'.phase = Function.update system.phase p phase)
    (before : (system.phase p).holds = false) (free : phase.holds = false)
    (direct : phase.nested = false) (writer : system'.writer = system.writer)
    (samePools : SamePools system.cache system'.cache) : Guarded config system' := by
  have unheld : system.writer ≠ some p := fun held => by
    rw [(guarded.holds p).mpr held] at before
    cases before
  refine guarded.change p phase phases ?_ (fun q _ => by rw [writer]) direct
    (fun insertion place walking => ?_) (.inl samePools)
  · rw [free, writer]
    exact ⟨by rintro ⟨⟩, fun held => absurd held unheld⟩
  · rw [Phase.holds_of_target walking] at free
    cases free

theorem samePools_release (cache : Cache V) (pool : Nat) :
    SamePools cache (apcCacheRelease cache pool) := by
  intro i
  have same : ∀ slot : Slot V, (releaseSlot pool slot).value.pool = slot.value.pool := by
    intro slot
    rw [releaseSlot]
    split <;> rfl
  simp [apcCacheRelease, same]

theorem samePools_modifySlot (cache : Cache V) (str : Bytes) (f : Slot V → Slot V)
    (same : ∀ slot, (f slot).value.pool = slot.value.pool) :
    SamePools cache (cache.modifySlot config str f) := by
  intro i
  by_cases here : i = hashSlot config str
  · subst here
    show ((Function.update cache.slots _ _) _).map _ = _
    rw [Function.update_self, map_modifyFirst same]
  · show ((Function.update cache.slots _ _) i).map _ = _
    rw [Function.update_of_ne here]

theorem samePools_find (cache : Cache V) (str : Bytes) (t : Int) :
    SamePools cache (apcCacheFind config cache str t).2 := by
  unfold apcCacheFind
  split
  · exact SamePools.refl cache
  · split
    · exact SamePools.refl cache
    · exact samePools_modifySlot { cache with nhits := cache.nhits + 1 } str _ fun _ => rfl

theorem ask_entry (last size : Nat) (insertion : Insertion V) :
    (ask memory last insertion (.entry size)).holds = false ∧
      (ask memory last insertion (.entry size)).nested = false := by
  unfold ask
  split <;> exact ⟨rfl, rfl⟩

theorem given_free (last : Nat) (insertion : Insertion V) {job : Job V}
    (unlocked : job.place = none) : (given memory last insertion job).holds = false ∧
      (given memory last insertion job).nested = false := by
  cases job with
  | context => exact ⟨rfl, rfl⟩
  | entry size => exact ⟨rfl, rfl⟩
  | slot place => cases unlocked
  | key place => cases unlocked

theorem askKey_target (last : Nat) (insertion : Insertion V) (place : Place V) :
    ∃ pool, (askKey memory last insertion place).holds = true ∧
      (askKey memory last insertion place).nested = false ∧
      (askKey memory last insertion place).target = some ({ insertion with pool }, place) := by
  unfold askKey
  cases insertion.pool.take insertion.key.str.length with
  | some pool => exact ⟨pool, rfl, rfl, rfl⟩
  | none => exact ⟨insertion.pool, rfl, rfl, rfl⟩

theorem given_target (last : Nat) (insertion : Insertion V) {job : Job V} {place : Place V}
    (locked : job.place = some place) : ∃ pool, (given memory last insertion job).holds = true ∧
      (given memory last insertion job).nested = false ∧
      (given memory last insertion job).target = some ({ insertion with pool }, place) := by
  cases job with
  | context => cases locked
  | entry size => cases locked
  | slot here =>
    cases locked
    exact askKey_target last insertion _
  | key here =>
    cases locked
    exact ⟨insertion.pool, rfl, rfl, rfl⟩

theorem ask_slot_target (last : Nat) (insertion : Insertion V) (place : Place V) :
    ∃ pool, (ask memory last insertion (.slot place)).holds = true ∧
      (ask memory last insertion (.slot place)).nested = false ∧
      (ask memory last insertion (.slot place)).target = some ({ insertion with pool }, place) := by
  unfold ask
  cases insertion.pool.take (Job.size insertion (.slot place)) with
  | some pool =>
    obtain ⟨pool', holds, direct, target⟩ :=
      @given_target V M memory last { insertion with pool } (.slot place) place rfl
    exact ⟨pool', holds, direct, target⟩
  | none => exact ⟨insertion.pool, rfl, rfl, rfl⟩

theorem Guarded.attempt (guarded : Guarded config system) {insertion : Insertion V} {job : Job V}
    {search : Search} (here : system.phase p = .allocating insertion job search)
    (junk : Slot V) (next : List (Slot V))
    (isServed : served memory system (.attempt p junk next) = true) :
    Guarded config (attempt memory system p junk next insertion job search) := by
  have same := SamePools.refl system.cache
  cases locked : job.place with
  | none =>
    have before : (system.phase p).holds = false := by
      rw [here]
      show job.place.isSome = false
      rw [locked]
      rfl
    have stays : ∀ search, (Phase.allocating insertion job search).holds = false ∧
        (Phase.failed insertion job search).holds = false ∧
        (Phase.failed insertion job search).nested = false := by
      intro search
      simp [Phase.holds, Phase.nested, locked]
    unfold Locking.attempt
    split
    · split
      · cases job with
        | context => exact guarded.move_free _ rfl before rfl rfl rfl same
        | entry size => exact guarded.move_free _ rfl before rfl rfl rfl same
        | slot place => cases locked
        | key place => cases locked
      · exact guarded.move_free _ rfl before (stays _).2.1 (stays _).2.2 rfl same
    · split
      · obtain ⟨free, direct⟩ := @given_free V M memory _
          { insertion with pool := job.grown insertion } job locked
        exact guarded.move_free _ rfl before free direct rfl same
      · split
        · exact guarded.move_free _ rfl before (stays _).1 rfl rfl same
        · exact guarded.move_free _ rfl before (stays _).2.1 (stays _).2.2 rfl same
  | some place =>
    have isSome : job.place.isSome = true := by rw [locked]; rfl
    have found : ∃ segment rest m, search.remaining = segment :: rest ∧
        memory.allocate insertion.value.pool segment (job.request insertion) fragment
          system.memory = some m := by
      simp only [served, here, locked, Option.isNone_some, Bool.false_or] at isServed
      split at isServed
      · cases isServed
      · rename_i segment rest remaining
        obtain ⟨m, allocated⟩ := Option.isSome_iff_exists.mp isServed
        exact ⟨segment, rest, m, remaining, allocated⟩
    obtain ⟨segment, rest, m, remaining, allocated⟩ := found
    have held : system.writer = some p := (guarded.holds p).mp (by rw [here]; exact isSome)
    have walking : (system.phase p).target = some (insertion, place) := by
      rw [here]
      show job.place.map _ = _
      rw [locked]
      rfl
    obtain ⟨pool, holds, direct, target⟩ := @given_target V M memory segment
      { insertion with pool := job.grown insertion } job place locked
    unfold Locking.attempt
    simp only [remaining, allocated]
    refine guarded.change p _ rfl ⟨fun _ => held, fun _ => holds⟩ (fun _ _ => Iff.rfl) direct
      (fun insertion' place' walks => ?_) (.inl same)
    rw [target] at walks
    obtain ⟨rfl, rfl⟩ := Prod.mk.inj (Option.some.inj walks)
    exact guarded.intact p insertion place walking

theorem Guarded.takeLock (guarded : Guarded config system) {work : Work V}
    (here : system.phase p = .waiting work)
    (taken : takeLock system p work = some system') : Guarded config system' := by
  have same := SamePools.refl system.cache
  have direct := guarded.direct p
  have unheld : system.writer ≠ some p := by
    intro held
    have holds := (guarded.holds p).mpr held
    rw [here] at holds direct
    cases work <;> first | cases holds | exact absurd (holds.symm.trans direct) nofun
  have free : (system.phase p).holds = false := by
    rw [Bool.eq_false_iff]
    exact fun holds => unheld ((guarded.holds p).mp holds)
  -- what the three writers have in common
  have write : ∀ {system'' : System ι V M} (phase : Phase V),
      system.writable p = true → system''.phase = Function.update system.phase p phase →
      phase.holds = true → phase.nested = false → phase.target = none →
      system''.writer = some p → system''.cache = system.cache → Guarded config system'' := by
    intro system'' phase writable phases holds nested target writer cache
    have none : system.writer = none := by
      simp only [System.writable, decide_eq_true_eq] at writable
      exact (writable.resolve_right unheld).1
    refine guarded.change p phase phases ⟨fun _ => writer, fun _ => holds⟩ (fun q apart => ?_) nested
      (fun insertion place walking => ?_) (.inl (by rw [cache]; exact same))
    · rw [writer, none]
      exact ⟨fun eq => absurd (Option.some.inj eq).symm apart, nofun⟩
    · rw [target] at walking
      cases walking
  unfold Locking.takeLock at taken
  split at taken
  · split at taken
    · cases taken
      exact guarded.move_free _ rfl free rfl rfl rfl same
    · cases taken
  · split at taken
    · rename_i writable
      cases taken
      exact write _ writable rfl rfl rfl rfl rfl rfl
    · cases taken
  · split at taken
    · rename_i writable
      cases taken
      exact write _ writable rfl rfl rfl rfl rfl rfl
    · cases taken
  · split at taken
    · rename_i insertion job search writable
      cases taken
      rw [here] at direct
      have unlocked : job.place = none := by
        cases place : job.place with
        | none => rfl
        | some place' => rw [Phase.nested, place] at direct; cases direct
      refine write _ writable rfl rfl ?_ ?_ rfl rfl
      · simp [Phase.nested, unlocked]
      · simp [Phase.target, unlocked]
    · cases taken

theorem Guarded.body_held (guarded : Guarded config system)
    (phase : Phase V) (phases : system'.phase = Function.update system.phase p phase)
    (before : (system.phase p).holds = true) (after : phase.holds = true)
    (direct : phase.nested = false) (writer : system'.writer = system.writer)
    (intact : ∀ insertion place, phase.target = some (insertion, place) →
      CellIntact config system'.cache insertion place) : Guarded config system' := by
  have held := (guarded.holds p).mp before
  refine guarded.change p phase phases ?_ (fun q _ => by rw [writer]) direct intact (.inr held)
  rw [writer]
  exact ⟨fun _ => held, fun _ => after⟩

theorem Guarded.release (guarded : Guarded config system)
    (phase : Phase V) (phases : system'.phase = Function.update system.phase p phase)
    (before : (system.phase p).holds = true) (after : phase.holds = false)
    (direct : phase.nested = false) (writer : system'.writer = none)
    (samePools : SamePools system.cache system'.cache) : Guarded config system' := by
  have held := (guarded.holds p).mp before
  refine guarded.change p phase phases ?_ (fun q apart => ?_) direct
    (fun insertion place walking => ?_) (.inl samePools)
  · rw [after, writer]
    exact ⟨by rintro ⟨⟩, by rintro ⟨⟩⟩
  · rw [writer, held]
    exact ⟨by rintro ⟨⟩, fun eq => absurd (Option.some.inj eq).symm apart⟩
  · rw [Phase.holds_of_target walking] at after
    cases after

theorem target_of_unlocked {insertion : Insertion V} {job : Job V} {search : Search}
    (unlocked : (Phase.expunged insertion job search).nested = false) :
    (Phase.expunged insertion job search).target = none := by
  cases place : job.place with
  | none => rw [Phase.target, place]; rfl
  | some place' => rw [Phase.nested, place] at unlocked; cases unlocked

theorem Guarded.walk (guarded : Guarded config system) {insertion : Insertion V}
    (here : system.phase p = .inserting insertion) (now : Int) :
    Guarded config (walk config memory system p now insertion) := by
  have before : (system.phase p).holds = true := by rw [here]; rfl
  unfold Locking.walk
  refine guarded.body_held _ rfl before ?_ ?_ rfl fun insertion' place' walking => ?_
  · split
    · rfl
    · exact (ask_slot_target _ _ _).choose_spec.1
  · split
    · rfl
    · exact (ask_slot_target _ _ _).choose_spec.2.1
  · split at walking
    · cases walking
    · obtain ⟨pool, -, -, target⟩ := @ask_slot_target V M memory (system.last p) insertion
        (insertWalk config insertion.key insertion.exclusive insertion.t now
          (apcCacheGc config now system.cache) []
          ((apcCacheGc config now system.cache).slots (insertion.index config)))
      rw [target] at walking
      obtain ⟨rfl, rfl⟩ := Prod.mk.inj (Option.some.inj walking)
      exact congrArg (List.map _) (Function.update_self _ _ _)

theorem Guarded.step (guarded : Guarded config system) {event : Event ι V}
    (isServed : served memory system event = true)
    (next : step config memory system event = some system') : Guarded config system' := by
  have same := SamePools.refl system.cache
  cases event with
  | release pool =>
    cases next
    exact ⟨guarded.holds, guarded.direct, fun p insertion place walking =>
      (guarded.intact p insertion place walking).of_samePools (samePools_release _ _)⟩
  | store p insertion =>
    simp only [Locking.step] at next
    split at next
    · rename_i here
      cases next
      exact guarded.move_free _ rfl (by rw [here]; rfl) rfl rfl rfl same
    · cases next
  | find p str t =>
    simp only [Locking.step] at next
    split at next
    · rename_i here
      cases next
      split
      · exact guarded
      · exact guarded.move_free _ rfl (by rw [here]; rfl) rfl rfl rfl same
    · cases next
  | update p str updater =>
    simp only [Locking.step] at next
    split at next
    · rename_i here
      cases next
      split
      · exact guarded
      · exact guarded.move_free _ rfl (by rw [here]; rfl) rfl rfl rfl same
    · cases next
  | palloc p size =>
    simp only [Locking.step] at next
    split at next
    · rename_i insertion here
      cases next
      obtain ⟨free, direct⟩ := @ask_entry V M memory (system.last p) size insertion
      exact guarded.move_free _ rfl (by rw [here]; rfl) free direct rfl same
    · cases next
  | abandon p =>
    simp only [Locking.step] at next
    split at next
    · rename_i insertion here
      cases next
      exact guarded.move_free .outside rfl (by rw [here]; rfl) rfl rfl rfl same
    · cases next
  | insert p =>
    simp only [Locking.step] at next
    split at next
    · rename_i insertion here
      split at next
      · cases next
        exact guarded.move_free .outside rfl (by rw [here]; rfl) rfl rfl rfl same
      · cases next
        exact guarded.move_free _ rfl (by rw [here]; rfl) rfl rfl rfl same
    · cases next
  | attempt p junk tail =>
    simp only [Locking.step] at next
    split at next
    · rename_i insertion job search here
      cases next
      exact guarded.attempt here junk tail isServed
    · cases next
  | check p =>
    simp only [Locking.step] at next
    split at next
    · rename_i insertion job search here
      cases next
      have direct := guarded.direct p
      rw [here] at direct
      have unlocked : job.place.isSome = false := direct
      refine guarded.move_free _ rfl (by rw [here]; exact unlocked) ?_ ?_ rfl same
      · split <;> exact unlocked
      · split
        · rfl
        · exact unlocked
    · cases next
  | lock p =>
    simp only [Locking.step] at next
    split at next
    · rename_i work here
      exact guarded.takeLock here next
    · cases next
  | body p now =>
    simp only [Locking.step] at next
    split at next
    · rename_i str t here
      cases next
      exact guarded.move_free .found rfl (by rw [here]; rfl) rfl rfl rfl (samePools_find _ _ _)
    · rename_i str updater here
      cases next
      exact guarded.body_held (.leaving none) rfl (by rw [here]; rfl) rfl rfl rfl nofun
    · rename_i insertion here
      cases next
      exact guarded.walk here now
    · rename_i insertion place allocation here
      cases next
      unfold write
      split
      · exact guarded.body_held _ rfl (by rw [here]; rfl) rfl rfl rfl nofun
      · exact guarded.body_held (.leaving none) rfl (by rw [here]; rfl) rfl rfl rfl nofun
    · rename_i insertion job search here
      cases next
      have direct := guarded.direct p
      rw [here] at direct
      refine guarded.body_held (.expunged insertion job search) rfl (by rw [here]; rfl) rfl
        direct rfl fun _ _ walking => ?_
      rw [target_of_unlocked direct] at walking
      cases walking
    · cases next
  | unlock p =>
    simp only [Locking.step] at next
    split at next
    · rename_i here
      cases next
      exact guarded.move_free .outside rfl (by rw [here]; rfl) rfl rfl rfl same
    · rename_i unused here
      cases next
      exact guarded.release .outside rfl (by rw [here]; rfl) rfl rfl rfl same
    · rename_i insertion job search here
      cases next
      have direct := guarded.direct p
      rw [here] at direct
      exact guarded.release (.allocating insertion job search) rfl (by rw [here]; rfl) direct rfl
        rfl same
    · cases next

theorem Guarded.disciplined (guarded : Guarded config system) {event : Event ι V}
     (next : Locking.step config memory system event = some system') :
    Disciplined config system event := by
  have alone : ∀ p, (system.phase p).holds = true → (system.phase p).target = none →
      ∀ q, (system.phase q).target = none := by
    intro p holds none q
    cases walking : (system.phase q).target with
    | none => rfl
    | some target =>
      have holdsQ := (guarded.holds q).mp (Phase.holds_of_target walking)
      have same : q = p := Option.some.inj (holdsQ.symm.trans ((guarded.holds p).mp holds))
      rw [same, none] at walking
      cases walking
  cases event with
  | lock p =>
    simp only [Locking.step] at next
    split at next
    · rename_i work here
      have direct := guarded.direct p
      show (system.phase p).holds = false
      rw [here] at direct ⊢
      cases work with
      | find str t => rfl
      | update str updater => rfl
      | insert insertion => rfl
      | expunge insertion job search => exact direct
    · cases next
  | body p now =>
    simp only [Disciplined]
    split
    · rename_i insertion here
      exact alone p (by rw [here]; rfl) (by rw [here]; rfl)
    · rename_i insertion job search here
      have direct := guarded.direct p
      rw [here] at direct
      exact alone p (by rw [here]; rfl)
        (by rw [here]; exact @target_of_unlocked V insertion job search direct)
    · rename_i insertion place allocation here
      exact guarded.intact p insertion place (by rw [here]; rfl)
    · trivial
  | _ => trivial

end

theorem guarded_start (config : Config V) (cache : Cache V) (m : M) (last : ι → Nat) :
    Guarded config (System.start cache m last) :=
  ⟨fun _ => ⟨nofun, nofun⟩, fun _ => rfl, nofun⟩

/-- **In every run whose allocations under the lock are served at once, every step keeps the
discipline of the lock.** -/
theorem disciplined_of_served [DecidableEq ι] (config : Config V) (memory : Memory M)
    (cache : Cache V) (m : M) (last : ι → Nat) (events : List (Event ι V))
    (allServed : Along config memory (fun system event => served memory system event = true)
      (System.start cache m last) events) :
    Along config memory (Disciplined config) (System.start cache m last) events := by
  have runs : ∀ (events : List (Event ι V)) (system : System ι V M), Guarded config system →
      Along config memory (fun system event => served memory system event = true) system events →
      Along config memory (Disciplined config) system events := by
    intro events
    induction events with
    | nil => exact fun _ _ _ => trivial
    | cons event events ih =>
      intro system guarded allServed
      rw [Along] at allServed ⊢
      cases next : step config memory system event with
      | none => trivial
      | some system' =>
        simp only [next] at allServed
        exact ⟨guarded.disciplined next, ih system' (guarded.step allServed.1 next) allServed.2⟩
  exact runs events _ (guarded_start config cache m last) allServed

/-! ## A full segment -/

def oneChain : Config Nat := ⟨1, by decide, 0, 0, false, fun _ => 0, fun _ => false⟩

/-- The segment when nothing has been given out. -/
def fresh : Shared := ⟨Sma.megabyte.init Sma.zeros, []⟩

/-- Storing a value under a key, by the one process. -/
def insertion (str : Bytes) (pool : Nat) : Insertion Nat :=
  ⟨makeKey oneChain str 0, makeEntry 0 0 pool, 0, false, .small⟩

def unfilled : Slot Nat := newSlot (makeKey oneChain [] 0) (makeEntry 0 0 0) 0

def tryOnce : Event Unit Nat := .attempt () unfilled []

def storeLarge : List (Event Unit Nat) :=
  [.store () (insertion [65, 0] 1), tryOnce, .palloc () 40, .palloc () 1046528, tryOnce,
    .insert (), .lock (), .body () 0, .body () 0, .unlock ()]

def storeLongKey : List (Event Unit Nat) :=
  [.store () (insertion (List.replicate 599 66 ++ [0]) 2), tryOnce, .palloc () 40, .insert (),
    .lock (), .body () 0, tryOnce, .check ()]

def nestedExpunge : List (Event Unit Nat) := [.lock (), .body () 0, .unlock (), tryOnce]

theorem disciplined_of_served_newBlock :
    Along oneChain (Memory.ofLayout Sma.megabyte) (Disciplined oneChain)
      (System.start (Cache.empty 0) fresh fun _ => 0)
      [.store () (insertion [65, 0] 1), tryOnce, .palloc () 480, .insert (), .lock (), .body () 0,
        tryOnce, .body () 0, .unlock ()] :=
  disciplined_of_served oneChain (Memory.ofLayout Sma.megabyte) (Cache.empty 0) fresh (fun _ => 0) _
    (by decide +kernel)

/-- The process takes the lock that it has; and when it comes to its write, the slot in front
of the cell, of pool 1, has been destroyed. -/
theorem not_disciplined_fullSegment :
    ¬ Along oneChain (Memory.ofLayout Sma.megabyte) (Disciplined oneChain)
        (System.start (Cache.empty 0) fresh fun _ => 0)
        (storeLarge ++ storeLongKey ++ nestedExpunge) ∧
      (run oneChain (Memory.ofLayout Sma.megabyte) (System.start (Cache.empty 0) fresh fun _ => 0)
        (storeLarge ++ storeLongKey ++ nestedExpunge)).map (fun system =>
          (system.cache.freed.map (·.1.value.pool),
            (system.phase ()).target.map fun target => target.2.before.map (·.value.pool))) =
        some ([1], some [1]) := by
  refine ⟨fun along => ?_, by decide +kernel⟩
  have reaches : (run oneChain (Memory.ofLayout Sma.megabyte)
      (System.start (Cache.empty 0) fresh fun _ => 0) (storeLarge ++ storeLongKey)).map
        (fun system => ((system.phase ()).holds,
          (step oneChain (Memory.ofLayout Sma.megabyte) system (.lock ())).isSome)) =
      some (true, true) := by decide +kernel
  obtain ⟨system, runs, isSystem⟩ := Option.map_eq_some_iff.mp reaches
  obtain ⟨holds, goesOn⟩ := Prod.mk.inj isSystem
  have free := Along.of_run _ _ along runs goesOn
  exact absurd (holds.symm.trans free) nofun

end PhpExts.Apcu.Locking
