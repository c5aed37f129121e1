import PhpExts.Swoole.Table

/-!
# The row lock of a bucket

Processes share one bucket.  Each `get`, `set` and `del` takes the spin lock in the
root row, works on the bucket, and releases the lock.  The word of the lock is part
of the root row, and `swTableRow_del` clears the whole root row with `bzero` when
nothing is chained to it: from then to its unlock the word is free although the
process is still in its section.

`safe_iff` says that this is the only way to lose exclusion: a run is safe exactly
when no process takes the lock while another stands between that `bzero` and its
unlock.
-/

namespace PhpExts.Swoole

open Function (update update_of_ne update_self)

variable {ι δ : Type}

/-! ## Processes and their steps -/

inductive Operation (δ : Type) where
  | get (key : List UInt8)
  | set (key : List UInt8) (write : δ → δ)
  | del (key : List UInt8)

/-- Where a process is: out of the three functions, spinning, after its lock, after
its body, or after a body that has cleared the root row. -/
inductive Phase (δ : Type) where
  | outside
  | spinning (operation : Operation δ)
  | locked (operation : Operation δ)
  | finished
  | cleared

def Phase.inSection : Phase δ → Prop
  | .outside | .spinning _ => False
  | .locked _ | .finished | .cleared => True

/-- The bucket, the lock word of its root row (`none` is 0; 1 comes with the process
whose compare-and-swap has written it, which no step looks at), and the processes. -/
structure System (ι δ : Type) where
  bucket : Bucket δ
  lock : Option ι
  phase : ι → Phase δ

def System.start (bucket : Bucket δ) : System ι δ := ⟨bucket, none, fun _ => .outside⟩

inductive Event (ι δ : Type) where
  | call (p : ι) (operation : Operation δ)
  | lock (p : ι)
  | body (p : ι) (idle : Bool)
  | unlock (p : ι)

/-- What an operation makes of the bucket while it has the lock; `idle` says whether
the pool has a row. -/
def body (zero : δ) (idle : Bool) (bucket : Bucket δ) : Operation δ → Bucket δ
  | .get _ => bucket
  | .set key write =>
    match swTableRowSet zero idle bucket key write with
    | none => bucket
    | some placed => placed.bucket
  | .del key =>
    match delLocked zero bucket key with
    | none => bucket
    | some (bucket', _) => bucket'

def clearsLock (bucket : Bucket δ) : Operation δ → Bool
  | .get _ | .set _ _ => false
  | .del key => clearsRoot bucket key

section

variable [DecidableEq ι] (zero : δ)

def System.move (system : System ι δ) (p : ι) (phase : Phase δ) : System ι δ :=
  { system with phase := update system.phase p phase }

/-- One step, `none` if the process cannot take it. -/
def step (system : System ι δ) : Event ι δ → Option (System ι δ)
  | .call p operation =>
    match system.phase p, operation with
    | .outside, .del key =>
      -- "no exists": the root's flag is read before the lock is taken
      if system.bucket.root.active then some (system.move p (.spinning (.del key)))
      else some system
    | .outside, operation => some (system.move p (.spinning operation))
    | _, _ => none
  | .lock p =>
    match system.phase p, system.lock with
    | .spinning operation, none =>
      some { system.move p (.locked operation) with lock := some p }
    | _, _ => none
  | .body p idle =>
    match system.phase p with
    | .locked operation =>
      let system' := { system with bucket := body zero idle system.bucket operation }
      if clearsLock system.bucket operation then
        some { system'.move p .cleared with lock := none }
      else some (system'.move p .finished)
    | _ => none
  | .unlock p =>
    match system.phase p with
    | .finished | .cleared => some { system.move p .outside with lock := none }
    | _ => none

def Exclusive (system : System ι δ) : Prop :=
  ∀ p q, (system.phase p).inSection → (system.phase q).inSection → p = q

def ReleasesOwn (system : System ι δ) : Event ι δ → Prop
  | .unlock p => ∀ q, system.lock = some q → q = p
  | _ => True

def Safe : System ι δ → List (Event ι δ) → Prop
  | system, [] => Exclusive system
  | system, event :: events =>
    Exclusive system ∧ ∀ system', step zero system event = some system' →
      ReleasesOwn system event ∧ Safe system' events

/-- The lock is not taken while a process has cleared the root row and not yet
released the lock. -/
def Undisturbed (system : System ι δ) : Event ι δ → Prop
  | .lock _ => ∀ q, system.phase q ≠ .cleared
  | _ => True

def AllUndisturbed : System ι δ → List (Event ι δ) → Prop
  | _, [] => True
  | system, event :: events =>
    ∀ system', step zero system event = some system' →
      Undisturbed system event ∧ AllUndisturbed system' events

structure Guarded (system : System ι δ) : Prop where
  holds : ∀ p, (system.phase p).inSection → system.phase p ≠ .cleared → system.lock = some p
  free : ∀ p, system.phase p = .cleared → system.lock = none
  alone : ∀ p q, system.phase p = .cleared → (system.phase q).inSection → q = p

omit [DecidableEq ι] in
theorem guarded_start (bucket : Bucket δ) : Guarded (System.start bucket : System ι δ) :=
  ⟨fun _ inside => inside.elim, nofun, nofun⟩

omit [DecidableEq ι] in
theorem Guarded.exclusive {system : System ι δ} (guarded : Guarded system) : Exclusive system := by
  intro p q inP inQ
  by_cases clearedP : system.phase p = .cleared
  · exact (guarded.alone p q clearedP inQ).symm
  · by_cases clearedQ : system.phase q = .cleared
    · exact guarded.alone q p clearedQ inP
    · have own := guarded.holds p inP clearedP
      rw [guarded.holds q inQ clearedQ] at own
      exact (Option.some.inj own).symm

omit [DecidableEq ι] in
theorem Guarded.releasesOwn {system : System ι δ} (guarded : Guarded system) {p q : ι}
    (inP : (system.phase p).inSection) (held : system.lock = some q) : q = p := by
  have uncleared : system.phase p ≠ .cleared := fun cleared => by
    rw [guarded.free p cleared] at held
    cases held
  rw [guarded.holds p inP uncleared] at held
  exact (Option.some.inj held).symm

/-! ## What each step preserves -/

section

variable {system : System ι δ} {p : ι} {bucket : Bucket δ}

theorem Guarded.move_outside (guarded : Guarded system) {phase : Phase δ}
    (before : ¬ (system.phase p).inSection) (after : ¬ phase.inSection) :
    Guarded (system.move p phase) := by
  have other : ∀ q, ((system.move p phase).phase q).inSection →
      (system.move p phase).phase q = system.phase q := by
    intro q inside
    by_cases same : q = p
    · subst same
      exact absurd (by simpa [System.move] using inside) after
    · exact update_of_ne same _ _
  have cleared : ∀ q, (system.move p phase).phase q = .cleared → system.phase q = .cleared :=
    fun q isCleared => by rw [← other q (by rw [isCleared]; trivial), isCleared]
  refine ⟨fun q inside uncleared => ?_, fun q isCleared => guarded.free q (cleared q isCleared),
    fun q r isCleared inside => ?_⟩
  · have unmoved := other q inside
    rw [unmoved] at inside uncleared
    exact guarded.holds q inside uncleared
  · have unmoved := other r inside
    rw [unmoved] at inside
    exact guarded.alone q r (cleared q isCleared) inside

omit [DecidableEq ι] in
theorem guarded_of_alone {phase : ι → Phase δ} {lock : Option ι}
    (alone : ∀ q, (phase q).inSection → q = p)
    (lockIs : phase p = .cleared ∧ lock = none ∨ phase p ≠ .cleared ∧ lock = some p) :
    Guarded ⟨bucket, lock, phase⟩ := by
  have inSection : ∀ q, phase q = .cleared → (phase q).inSection := fun q isCleared => by
    rw [isCleared]
    trivial
  refine ⟨fun q inside uncleared => ?_, fun q isCleared => ?_, fun q r isCleared inside => ?_⟩
  · obtain rfl := alone q inside
    rcases lockIs with ⟨isCleared, -⟩ | ⟨-, held⟩
    · exact absurd isCleared uncleared
    · exact held
  · obtain rfl := alone q (inSection q isCleared)
    rcases lockIs with ⟨-, free⟩ | ⟨uncleared, -⟩
    · exact free
    · exact absurd isCleared uncleared
  · rw [alone r inside, alone q (inSection q isCleared)]

theorem Guarded.take (guarded : Guarded system) (free : system.lock = none)
    (undisturbed : ∀ q, system.phase q ≠ .cleared) (operation : Operation δ) :
    Guarded { system.move p (.locked operation) with lock := some p } := by
  refine guarded_of_alone (fun q inside => ?_) (.inr ⟨by simp [System.move], rfl⟩)
  by_contra ne
  have unmoved : update system.phase p (.locked operation) q = system.phase q :=
    update_of_ne ne _ _
  have inside' : (system.phase q).inSection := by rwa [← unmoved]
  have held := guarded.holds q inside' (undisturbed q)
  rw [free] at held
  cases held

theorem Guarded.goOn (guarded : Guarded system) {phase : Phase δ} {lock : Option ι}
    (inP : (system.phase p).inSection)
    (lockIs : phase = .cleared ∧ lock = none ∨ phase ≠ .cleared ∧ lock = some p) :
    Guarded ⟨bucket, lock, update system.phase p phase⟩ := by
  refine guarded_of_alone (p := p) (fun q inside => ?_) (by simpa using lockIs)
  by_contra ne
  rw [update_of_ne ne] at inside
  exact ne (guarded.exclusive q p inside inP)

theorem Guarded.leave (guarded : Guarded system) (inP : (system.phase p).inSection) :
    Guarded { system.move p .outside with lock := none } := by
  have nobody : ∀ q, ¬ (update system.phase p .outside q).inSection := by
    intro q inside
    by_cases same : q = p
    · subst same
      rw [update_self] at inside
      exact inside
    · rw [update_of_ne same] at inside
      exact same (guarded.exclusive q p inside inP)
  exact ⟨fun q inside => (nobody q inside).elim,
    fun q _ => rfl,
    fun q r _ inside => (nobody r inside).elim⟩

theorem Guarded.step (guarded : Guarded system) {event : Event ι δ} {system' : System ι δ}
    (taken : step zero system event = some system') (undisturbed : Undisturbed system event) :
    Guarded system' ∧ ReleasesOwn system event := by
  cases event with
  | call p operation =>
    refine ⟨?_, trivial⟩
    simp only [Swoole.step] at taken
    split at taken
    · rename_i phase
      split at taken <;> cases taken
      · exact guarded.move_outside (by rw [phase]; exact id) id
      · exact guarded
    · rename_i phase _
      cases taken
      exact guarded.move_outside (by rw [phase]; exact id) id
    · cases taken
  | lock p =>
    refine ⟨?_, trivial⟩
    simp only [Swoole.step] at taken
    split at taken
    · rename_i operation phase free
      cases taken
      exact guarded.take free undisturbed operation
    · cases taken
  | body p idle =>
    refine ⟨?_, trivial⟩
    simp only [Swoole.step] at taken
    split at taken
    · rename_i operation phase
      have inP : (system.phase p).inSection := by rw [phase]; trivial
      have held := guarded.holds p inP (by rw [phase]; nofun)
      split at taken <;> cases taken
      · exact guarded.goOn inP (.inl ⟨rfl, rfl⟩)
      · exact guarded.goOn inP (.inr ⟨nofun, held⟩)
    · cases taken
  | unlock p =>
    simp only [Swoole.step] at taken
    split at taken
    · rename_i phase
      cases taken
      have inP : (system.phase p).inSection := by rw [phase]; trivial
      exact ⟨guarded.leave inP, fun q => guarded.releasesOwn inP⟩
    · rename_i phase
      cases taken
      have inP : (system.phase p).inSection := by rw [phase]; trivial
      exact ⟨guarded.leave inP, fun q => guarded.releasesOwn inP⟩
    · cases taken

end

theorem undisturbed_of_exclusive {system system' : System ι δ} {event : Event ι δ}
    (taken : step zero system event = some system') (exclusive : Exclusive system') :
    Undisturbed system event := by
  cases event with
  | lock p =>
    simp only [step] at taken
    split at taken
    · rename_i operation phase free
      cases taken
      intro q cleared
      have ne : q ≠ p := by
        rintro rfl
        rw [phase] at cleared
        cases cleared
      refine ne (exclusive q p ?_ ?_)
      · show (update system.phase p (.locked operation) q).inSection
        rw [update_of_ne ne, cleared]
        trivial
      · show (update system.phase p (.locked operation) p).inSection
        rw [update_self]
        trivial
    · cases taken
  | call | body | unlock => trivial

theorem Safe.exclusive {system : System ι δ} {events : List (Event ι δ)}
    (safe : Safe zero system events) : Exclusive system := by
  cases events with
  | nil => exact safe
  | cons event events => exact safe.1

/-- **A run is safe exactly when no process takes the lock while another has cleared
the root row and not yet released the lock.** -/
theorem safe_iff (bucket : Bucket δ) (events : List (Event ι δ)) :
    Safe zero (System.start bucket) events ↔ AllUndisturbed zero (System.start bucket) events := by
  constructor
  · generalize System.start bucket = system
    intro safe
    induction events generalizing system with
    | nil => trivial
    | cons event events ih =>
      intro system' taken
      have rest := (safe.2 system' taken).2
      exact ⟨undisturbed_of_exclusive zero taken rest.exclusive, ih system' rest⟩
  · have guarded : Guarded (System.start bucket : System ι δ) := guarded_start bucket
    revert guarded
    generalize System.start bucket = system
    intro guarded undisturbed
    induction events generalizing system with
    | nil => exact guarded.exclusive
    | cons event events ih =>
      refine ⟨guarded.exclusive, fun system' taken => ?_⟩
      obtain ⟨now, later⟩ := undisturbed system' taken
      obtain ⟨guarded', own⟩ := guarded.step zero taken now
      exact ⟨own, ih system' guarded' later⟩

end

/-! ## Two processes on one key -/

def loneRow : Bucket Nat := ⟨⟨true, 107 :: List.replicate 63 0, 1⟩, []⟩

/-- The first process deletes "k"; before its unlock the second takes the lock. -/
theorem not_safe_lockAfterClear : ¬ Safe 0 (System.start loneRow : System Bool Nat)
      [.call false (.del [107]), .call true (.get [107]), .lock false, .body false true,
        .lock true] := by
  intro safe
  have exclusive := ((((safe.2 _ rfl).2.2 _ rfl).2.2 _ rfl).2.2 _ rfl).2.2 _ rfl
  exact Bool.false_ne_true (exclusive.2 false true trivial trivial)

end PhpExts.Swoole
