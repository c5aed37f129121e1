import Mathlib.Data.List.Basic

/-!
# Programs with a state, a return code and a log

A C function that works on a record, may read outside a buffer and may not
return is read here as a function from the record to a run. A run ends in one
of four ways: it returns a value, it returns the code of a failure, it makes an
access the language leaves undefined, or it is cut off because it used up the
fuel it was given. In every case the run leaves a state behind, and a log of
the events the program announced on its way.

Two judgments are built over runs. `Returns` says that a program returns a value
from a state, and has an inversion for every program former, so that one proof
can both take an encoder apart and put a decoder together. `Meets` is a rule of
pre- and postconditions that also covers the log: under an assumption on every
event of the run, every event satisfies a guarantee and the end of the run
satisfies a postcondition.
-/

namespace PhpExts.Library

/-- How a run ends. -/
inductive Result (ε φ α : Type) where
  /-- The function returned normally. -/
  | ok (value : α)
  /-- The function returned its failure code. -/
  | error (reason : ε)
  /-- The function made an access the language leaves undefined. -/
  | fault (access : φ)
  /-- The function was still running when its fuel was used up. -/
  | diverge
  deriving DecidableEq

/-- Rename the undefined accesses. -/
def Result.mapFault {ε φ ψ α : Type} (f : φ → ψ) : Result ε φ α → Result ε ψ α
  | .ok a => .ok a
  | .error e => .error e
  | .fault x => .fault (f x)
  | .diverge => .diverge

/-- A run: the events announced, the state left behind and the way it ended. -/
structure Run (ε φ τ σ α : Type) where
  log : List τ
  state : σ
  result : Result ε φ α

/-- A program over the state `σ` with log entries `τ`. -/
def Prog (ε φ τ σ α : Type) : Type := σ → Run ε φ τ σ α

namespace Prog

variable {ε φ τ σ α β : Type}

/-! ## Program formers -/

/-- Return a value. -/
def ret (a : α) : Prog ε φ τ σ α := fun s => ⟨[], s, .ok a⟩

/-- Run `m`, and if it returns go on with `f`. -/
def andThen (m : Prog ε φ τ σ α) (f : α → Prog ε φ τ σ β) : Prog ε φ τ σ β := fun s =>
  match m s with
  | ⟨log, s', .ok a⟩ => ⟨log ++ (f a s').log, (f a s').state, (f a s').result⟩
  | ⟨log, s', .error e⟩ => ⟨log, s', .error e⟩
  | ⟨log, s', .fault x⟩ => ⟨log, s', .fault x⟩
  | ⟨log, s', .diverge⟩ => ⟨log, s', .diverge⟩

instance : Monad (Prog ε φ τ σ) where
  pure := ret
  bind := andThen

/-- Read the state. -/
def read : Prog ε φ τ σ σ := fun s => ⟨[], s, .ok s⟩

/-- Change the state. -/
def update (f : σ → σ) : Prog ε φ τ σ Unit := fun s => ⟨[], f s, .ok ()⟩

/-- Announce an event. -/
def announce (event : σ → τ) : Prog ε φ τ σ Unit := fun s => ⟨[event s], s, .ok ()⟩

/-- Return the failure code. -/
def fail (e : ε) : Prog ε φ τ σ α := fun s => ⟨[], s, .error e⟩

/-- Return the failure code if the condition holds. -/
def failIf (condition : Prop) [Decidable condition] (e : ε) : Prog ε φ τ σ Unit :=
  if condition then fail e else ret ()

/-- Make an undefined access. -/
def crash (x : φ) : Prog ε φ τ σ α := fun s => ⟨[], s, .fault x⟩

/-- Run out of fuel. -/
def exhausted : Prog ε φ τ σ α := fun s => ⟨[], s, .diverge⟩

/-- Run a program on a part of the state, renaming its undefined accesses. -/
def zoom {υ ψ : Type} (get : σ → υ) (set : υ → σ → σ) (f : φ → ψ) (m : Prog ε φ τ υ α) :
    Prog ε ψ τ σ α := fun s =>
  ⟨(m (get s)).log, set (m (get s)).state s, (m (get s)).result.mapFault f⟩

/-- Run `m`; if it returns the failure code, run `cleanup` and return that code. -/
def onError (m : Prog ε φ τ σ α) (cleanup : Prog ε φ τ σ Unit) : Prog ε φ τ σ α := fun s =>
  match m s with
  | ⟨log, s', .error e⟩ => andThen (fun _ => ⟨log, s', .ok ()⟩)
      (fun _ => andThen cleanup (fun _ => fail e)) s
  | run => run

instance : LawfulMonad (Prog ε φ τ σ) := by
  refine LawfulMonad.mk' _ ?_ ?_ ?_
  · intro α m
    funext s
    change andThen m ret s = m s
    simp only [andThen, ret]
    rcases m s with ⟨log, s', result⟩
    cases result <;> simp
  · intro α β a f
    funext s
    change andThen (ret a) f s = f a s
    simp [andThen, ret]
  · intro α β γ m f g
    funext s
    change andThen (andThen m f) g s = andThen m (fun a => andThen (f a) g) s
    simp only [andThen]
    rcases m s with ⟨log, s', result⟩
    cases result with
    | ok a =>
      simp only
      rcases f a s' with ⟨log', s'', result'⟩
      cases result' <;> simp
    | _ => rfl

/-! ## A program that returns -/

/-- The program returns `a` from `s` and leaves `s'`. -/
def Returns (m : Prog ε φ τ σ α) (s : σ) (a : α) (s' : σ) : Prop :=
  (m s).result = .ok a ∧ (m s).state = s'

theorem Returns.unique {m : Prog ε φ τ σ α} {s s₁ s₂ : σ} {a₁ a₂ : α}
    (first : Returns m s a₁ s₁) (second : Returns m s a₂ s₂) : a₁ = a₂ ∧ s₁ = s₂ := by
  have sameValue := first.1.symm.trans second.1
  exact ⟨by injection sameValue, first.2.symm.trans second.2⟩

theorem Returns.of_eq {m m' : Prog ε φ τ σ α} {s s' : σ} {a : α} (alike : m s = m' s)
    (returns : Returns m s a s') : Returns m' s a s' := by
  unfold Returns
  rw [← alike]
  exact returns

@[simp] theorem returns_pure {s s' : σ} {a b : α} :
    Returns (pure a : Prog ε φ τ σ α) s b s' ↔ b = a ∧ s' = s := by
  constructor
  · rintro ⟨value, state⟩
    exact ⟨by injection value with same; exact same.symm, state.symm⟩
  · rintro ⟨rfl, rfl⟩
    exact ⟨rfl, rfl⟩

@[simp] theorem returns_bind {m : Prog ε φ τ σ α} {f : α → Prog ε φ τ σ β} {s s'' : σ} {b : β} :
    Returns (m >>= f) s b s'' ↔ ∃ a s', Returns m s a s' ∧ Returns (f a) s' b s'' := by
  change Returns (andThen m f) s b s'' ↔ _
  simp only [Returns, andThen]
  rcases m s with ⟨log, s', result⟩
  cases result <;> simp

@[simp] theorem returns_read {s s' a : σ} :
    Returns (read : Prog ε φ τ σ σ) s a s' ↔ a = s ∧ s' = s := by
  simp [Returns, read, eq_comm]

@[simp] theorem returns_update {f : σ → σ} {s s' : σ} {u : Unit} :
    Returns (update f : Prog ε φ τ σ Unit) s u s' ↔ s' = f s := by
  simp [Returns, update, eq_comm]

@[simp] theorem returns_announce {event : σ → τ} {s s' : σ} {u : Unit} :
    Returns (announce event : Prog ε φ τ σ Unit) s u s' ↔ s' = s := by
  simp [Returns, announce, eq_comm]

@[simp] theorem returns_fail {e : ε} {s s' : σ} {a : α} :
    ¬ Returns (fail e : Prog ε φ τ σ α) s a s' := by
  simp [Returns, fail]

@[simp] theorem returns_failIf {condition : Prop} [Decidable condition] {e : ε} {s s' : σ}
    {u : Unit} :
    Returns (failIf condition e : Prog ε φ τ σ Unit) s u s' ↔ ¬ condition ∧ s' = s := by
  by_cases holds : condition <;> simp [Returns, failIf, fail, ret, holds, eq_comm]

@[simp] theorem returns_crash {x : φ} {s s' : σ} {a : α} :
    ¬ Returns (crash x : Prog ε φ τ σ α) s a s' := by
  simp [Returns, crash]

@[simp] theorem returns_exhausted {s s' : σ} {a : α} :
    ¬ Returns (exhausted : Prog ε φ τ σ α) s a s' := by
  simp [Returns, exhausted]

@[simp] theorem returns_zoom {υ ψ : Type} {get : σ → υ} {set : υ → σ → σ} {f : φ → ψ}
    {m : Prog ε φ τ υ α} {s s' : σ} {a : α} :
    Returns (zoom get set f m) s a s' ↔ ∃ u, Returns m (get s) a u ∧ s' = set u s := by
  simp only [Returns, zoom]
  rcases m (get s) with ⟨log, u, result⟩
  cases result <;> simp [Result.mapFault, eq_comm]

@[simp] theorem read_bind_apply {f : σ → Prog ε φ τ σ α} {s : σ} :
    ((read : Prog ε φ τ σ σ) >>= f) s = f s s := rfl

theorem bind_of_returns {m : Prog ε φ τ σ α} {f : α → Prog ε φ τ σ β} {s s' : σ} {a : α}
    (first : Returns m s a s') :
    (m >>= f) s = ⟨(m s).log ++ (f a s').log, (f a s').state, (f a s').result⟩ := by
  obtain ⟨value, state⟩ := first
  change andThen m f s = _
  simp only [andThen]
  rcases run : m s with ⟨log, s₁, result⟩
  rw [run] at value state
  cases value
  cases state
  rfl

theorem bind_congr_at {m m' : Prog ε φ τ σ α} {f g : α → Prog ε φ τ σ β} {s : σ}
    (first : m s = m' s) (next : ∀ a s', Returns m s a s' → f a s' = g a s') :
    (m >>= f) s = (m' >>= g) s := by
  change andThen m f s = andThen m' g s
  unfold Returns at next
  simp only [andThen, ← first]
  rcases run : m s with ⟨log, s', result⟩
  cases result with
  | ok a => simp only [next a s' ⟨by rw [run], by rw [run]⟩]
  | _ => rfl

/-! ## A program that faults -/

/-- The program makes the undefined access `x` from `s`. -/
def Faults (m : Prog ε φ τ σ α) (s : σ) (x : φ) : Prop := (m s).result = .fault x

@[simp] theorem faults_bind {m : Prog ε φ τ σ α} {f : α → Prog ε φ τ σ β} {s : σ} {x : φ} :
    Faults (m >>= f) s x ↔ Faults m s x ∨ ∃ a s', Returns m s a s' ∧ Faults (f a) s' x := by
  change Faults (andThen m f) s x ↔ _
  simp only [Faults, Returns, andThen]
  rcases m s with ⟨log, s', result⟩
  cases result <;> simp

@[simp] theorem faults_crash {s : σ} {x y : φ} : Faults (crash x : Prog ε φ τ σ α) s y ↔ x = y := by
  simp [Faults, crash]

/-! ## Assumptions and guarantees over the log -/

/-- If every event of the run satisfies `A`, then every event satisfies `G` and
the run ends in `Q`. -/
def Meets (A G : τ → Prop) (m : Prog ε φ τ σ α) (s : σ) (Q : Result ε φ α → σ → Prop) : Prop :=
  (∀ e ∈ (m s).log, A e) → (∀ e ∈ (m s).log, G e) ∧ Q (m s).result (m s).state

section

variable {A G : τ → Prop} {s : σ} {Q : Result ε φ α → σ → Prop} {m : Prog ε φ τ σ α}

variable {R : Result ε φ α → σ → Prop}

theorem Meets.mono (meets : Meets A G m s Q) (weaken : ∀ r s', Q r s' → R r s') : Meets A G m s R :=
  fun assumed => ⟨(meets assumed).1, weaken _ _ (meets assumed).2⟩

theorem meets_pure {a : α} (post : Q (.ok a) s) : Meets A G (pure a) s Q :=
  fun _ => ⟨fun _ mem => (List.not_mem_nil mem).elim, post⟩

theorem meets_update {f : σ → σ} {Q : Result ε φ Unit → σ → Prop} (post : Q (.ok ()) (f s)) :
    Meets A G (update f : Prog ε φ τ σ Unit) s Q :=
  fun _ => ⟨fun _ mem => (List.not_mem_nil mem).elim, post⟩

theorem meets_fail {e : ε} (post : Q (.error e) s) : Meets A G (fail e : Prog ε φ τ σ α) s Q :=
  fun _ => ⟨fun _ mem => (List.not_mem_nil mem).elim, post⟩

theorem meets_crash {x : φ} (post : Q (.fault x) s) : Meets A G (crash x : Prog ε φ τ σ α) s Q :=
  fun _ => ⟨fun _ mem => (List.not_mem_nil mem).elim, post⟩

theorem meets_exhausted (post : Q .diverge s) : Meets A G (exhausted : Prog ε φ τ σ α) s Q :=
  fun _ => ⟨fun _ mem => (List.not_mem_nil mem).elim, post⟩

/-- The rule of composition: the first program ends in a state from which the
second meets its postcondition, or it stops the whole program. -/
theorem meets_bind {f : α → Prog ε φ τ σ β} {Q : Result ε φ β → σ → Prop} (first : Meets A G m s R)
    (next : ∀ a s', R (.ok a) s' → Meets A G (f a) s' Q)
    (onFail : ∀ e s', R (.error e) s' → Q (.error e) s')
    (onFault : ∀ x s', R (.fault x) s' → Q (.fault x) s')
    (onDiverge : ∀ s', R .diverge s' → Q .diverge s') : Meets A G (m >>= f) s Q := by
  change Meets A G (andThen m f) s Q
  unfold Meets at first ⊢
  simp only [andThen]
  generalize m s = run at first ⊢
  rcases run with ⟨log, s', result⟩
  cases result with
  | ok a =>
    intro assumed
    have here := first fun e mem => assumed e (List.mem_append_left _ mem)
    have there := next a s' here.2 fun e mem => assumed e (List.mem_append_right _ mem)
    refine ⟨fun e mem => ?_, there.2⟩
    rcases List.mem_append.mp mem with left | right
    · exact here.1 e left
    · exact there.1 e right
  | error e => exact fun assumed => ⟨(first assumed).1, onFail _ _ (first assumed).2⟩
  | fault x => exact fun assumed => ⟨(first assumed).1, onFault _ _ (first assumed).2⟩
  | diverge => exact fun assumed => ⟨(first assumed).1, onDiverge _ (first assumed).2⟩

/-- The rule of cleanup: after a failure the cleanup runs from the state the
failure left behind. -/
theorem meets_onError {cleanup : Prog ε φ τ σ Unit} (first : Meets A G m s R)
    (keep : ∀ r s', (∀ e, r ≠ .error e) → R r s' → Q r s') (clean : ∀ e s', R (.error e) s' →
      Meets A G (cleanup >>= fun _ => fail e) s' Q) : Meets A G (onError m cleanup) s Q := by
  unfold Meets at first ⊢
  simp only [onError]
  generalize m s = run at first ⊢
  rcases run with ⟨log, s', result⟩
  cases result with
  | ok a => exact fun assumed => ⟨(first assumed).1, keep _ _ (by simp) (first assumed).2⟩
  | fault x => exact fun assumed => ⟨(first assumed).1, keep _ _ (by simp) (first assumed).2⟩
  | diverge => exact fun assumed => ⟨(first assumed).1, keep _ _ (by simp) (first assumed).2⟩
  | error e =>
    simp only [andThen]
    intro assumed
    have here := first fun e mem => assumed e (List.mem_append_left _ mem)
    have there := clean e s' here.2 fun e mem => assumed e (List.mem_append_right _ mem)
    refine ⟨fun e mem => ?_, there.2⟩
    rcases List.mem_append.mp mem with left | right
    · exact here.1 e left
    · exact there.1 e right

/-! ### Postconditions by cases -/

/-- What holds when a program stops without returning. -/
structure Stop (ε φ σ : Type) where
  error : ε → σ → Prop
  fault : φ → σ → Prop
  diverge : σ → Prop

/-- The postcondition that `post` holds of the value returned, and `stop` of
every other end. -/
def Stop.orElse (stop : Stop ε φ σ) (post : α → σ → Prop) : Result ε φ α → σ → Prop
  | .ok a, s => post a s
  | .error e, s => stop.error e s
  | .fault x, s => stop.fault x s
  | .diverge, s => stop.diverge s

variable {stop : Stop ε φ σ}

@[simp] theorem Stop.orElse_ok {post : α → σ → Prop} {a : α} :
    stop.orElse post (.ok a) s ↔ post a s := Iff.rfl

theorem meets_seq {f : α → Prog ε φ τ σ β} {R : α → σ → Prop}
    {post : β → σ → Prop} (first : Meets A G m s (stop.orElse R))
    (next : ∀ a s', R a s' → Meets A G (f a) s' (stop.orElse post)) :
    Meets A G (m >>= f) s (stop.orElse post) :=
  meets_bind first next (fun _ _ h => h) (fun _ _ h => h) (fun _ h => h)

theorem Meets.weaken {mid post : α → σ → Prop}
    (meets : Meets A G m s (stop.orElse mid)) (imp : ∀ a s', mid a s' → post a s') :
    Meets A G m s (stop.orElse post) :=
  meets.mono fun r s' holds => by
    cases r with
    | ok a => exact imp a s' holds
    | _ => exact holds

@[simp] theorem meets_read_bind {f : σ → Prog ε φ τ σ α} :
    Meets A G (read >>= f) s Q ↔ Meets A G (f s) s Q := by
  change Meets A G (andThen read f) s Q ↔ _
  simp [Meets, andThen, read]

@[simp] theorem meets_update_bind {g : σ → σ} {f : Unit → Prog ε φ τ σ α}
     : Meets A G (update g >>= f) s Q ↔ Meets A G (f ()) (g s) Q := by
  change Meets A G (andThen (update g) f) s Q ↔ _
  simp [Meets, andThen, update]

@[simp] theorem meets_pure_iff {a : α} :
    Meets A G (pure a : Prog ε φ τ σ α) s Q ↔ Q (.ok a) s := by
  change Meets A G (ret a) s Q ↔ _
  simp [Meets, ret]

@[simp] theorem meets_update_iff {g : σ → σ} {Q : Result ε φ Unit → σ → Prop} :
    Meets A G (update g : Prog ε φ τ σ Unit) s Q ↔ Q (.ok ()) (g s) := by
  simp [Meets, update]

theorem meets_failIf {condition : Prop} [Decidable condition] {e : ε}
    {Q : Result ε φ Unit → σ → Prop} (fails : condition → Q (.error e) s)
    (passes : ¬ condition → Q (.ok ()) s) :
    Meets A G (failIf condition e : Prog ε φ τ σ Unit) s Q := by
  by_cases holds : condition
  · simpa [Meets, failIf, holds, fail] using fails holds
  · simpa [Meets, failIf, holds, ret] using passes holds

/-- An event is assumed, then guaranteed, and the program goes on. -/
theorem meets_announce_bind {event : σ → τ} {f : Unit → Prog ε φ τ σ α}
     (holds : A (event s) → G (event s) ∧ Meets A G (f ()) s Q) :
    Meets A G (announce event >>= f) s Q := by
  intro assumed
  have here := holds (assumed _ (.head _))
  have there := here.2 fun e mem => assumed e (.tail _ mem)
  refine ⟨fun e mem => ?_, there.2⟩
  rcases List.mem_cons.mp mem with rfl | later
  · exact here.1
  · exact there.1 e later

end

/-! ## Invariants of programs that return -/

/-- A run that returns keeps the invariant. -/
def Keeps (I : σ → Prop) (m : Prog ε φ τ σ α) : Prop :=
  ∀ s a s', I s → Returns m s a s' → I s'

section

variable {I : σ → Prop}

theorem Keeps.bind {m : Prog ε φ τ σ α} {f : α → Prog ε φ τ σ β} (first : Keeps I m)
    (next : ∀ a, Keeps I (f a)) : Keeps I (m >>= f) := by
  intro s b s'' holds returns
  obtain ⟨a, s', head, tail⟩ := returns_bind.mp returns
  exact next a s' b s'' (first s a s' holds head) tail

theorem keeps_pure {a : α} : Keeps I (pure a : Prog ε φ τ σ α) := by
  intro s b s' holds returns
  rw [(returns_pure.mp returns).2]
  exact holds

theorem keeps_read : Keeps I (read : Prog ε φ τ σ σ) := by
  intro s b s' holds returns
  rw [(returns_read.mp returns).2]
  exact holds

theorem keeps_update {f : σ → σ} (keeps : ∀ s, I s → I (f s)) :
    Keeps I (update f : Prog ε φ τ σ Unit) := by
  intro s b s' holds returns
  rw [returns_update.mp returns]
  exact keeps s holds

theorem keeps_announce {event : σ → τ} : Keeps I (announce event : Prog ε φ τ σ Unit) := by
  intro s b s' holds returns
  rw [returns_announce.mp returns]
  exact holds

theorem keeps_fail {e : ε} : Keeps I (fail e : Prog ε φ τ σ α) :=
  fun _ _ _ _ returns => absurd returns returns_fail

theorem keeps_failIf {condition : Prop} [Decidable condition] {e : ε} :
    Keeps I (failIf condition e : Prog ε φ τ σ Unit) := by
  intro s b s' holds returns
  rw [(returns_failIf.mp returns).2]
  exact holds

theorem keeps_crash {x : φ} : Keeps I (crash x : Prog ε φ τ σ α) :=
  fun _ _ _ _ returns => absurd returns returns_crash

theorem keeps_exhausted : Keeps I (exhausted : Prog ε φ τ σ α) :=
  fun _ _ _ _ returns => absurd returns returns_exhausted

theorem keeps_zoom {υ ψ : Type} {get : σ → υ} {set : υ → σ → σ} {f : φ → ψ} {J : υ → Prop}
    {m : Prog ε φ τ υ α} (inner : Keeps J m) (down : ∀ s, I s → J (get s))
    (up : ∀ s u, I s → J u → I (set u s)) : Keeps I (zoom get set f m) := by
  intro s a s' holds returns
  obtain ⟨u, inside, rfl⟩ := returns_zoom.mp returns
  exact up s u holds (inner _ _ _ (down s holds) inside)

end

/-! ## Faults the log accounts for -/

/-- Every event of the run satisfies `A` exactly when the run does not end in a fault
that satisfies `W`. -/
def Accounts (A : τ → Prop) (W : φ → Prop) (m : Prog ε φ τ σ α) (s : σ) : Prop :=
  (∀ e ∈ (m s).log, A e) ↔ ∀ x, (m s).result = .fault x → ¬ W x

variable {A : τ → Prop} {W : φ → Prop} {s : σ}

theorem accounts_pure {a : α} : Accounts A W (pure a : Prog ε φ τ σ α) s := by
  change Accounts A W (ret a) s
  simp [Accounts, ret]

theorem accounts_read : Accounts A W (read : Prog ε φ τ σ σ) s := by
  simp [Accounts, read]

theorem accounts_update {f : σ → σ} : Accounts A W (update f : Prog ε φ τ σ Unit) s := by
  simp [Accounts, update]

theorem accounts_fail {e : ε} : Accounts A W (fail e : Prog ε φ τ σ α) s := by
  simp [Accounts, fail]

theorem accounts_failIf {condition : Prop} [Decidable condition] {e : ε} :
    Accounts A W (failIf condition e : Prog ε φ τ σ Unit) s := by
  by_cases holds : condition <;> simp [Accounts, failIf, fail, ret, holds]

theorem accounts_crash {x : φ} (other : ¬ W x) : Accounts A W (crash x : Prog ε φ τ σ α) s := by
  simpa [Accounts, crash] using other

theorem accounts_exhausted : Accounts A W (exhausted : Prog ε φ τ σ α) s := by
  simp [Accounts, exhausted]

theorem accounts_bind {m : Prog ε φ τ σ α} {f : α → Prog ε φ τ σ β} (first : Accounts A W m s)
    (next : ∀ a s', Returns m s a s' → Accounts A W (f a) s') : Accounts A W (m >>= f) s := by
  change Accounts A W (andThen m f) s
  unfold Accounts Returns at *
  simp only [andThen]
  generalize m s = run at first next ⊢
  rcases run with ⟨log, s', result⟩
  cases result with
  | ok a =>
    have next := next a s' ⟨rfl, rfl⟩
    have all : ∀ e ∈ log, A e := first.mpr nofun
    rw [← next]
    simp only [List.mem_append]
    exact ⟨fun holds e mem => holds e (.inr mem),
      fun holds e mem => mem.elim (all e) (holds e)⟩
  | _ => simpa using first

theorem accounts_zoom {υ ψ : Type} {get : σ → υ} {set : υ → σ → σ} {f : φ → ψ} {V : ψ → Prop}
    {m : Prog ε φ τ υ α} (same : ∀ x, V (f x) ↔ W x) (inner : Accounts A W m (get s)) :
    Accounts A V (zoom get set f m) s := by
  unfold Accounts at *
  simp only [zoom]
  rw [inner]
  cases (m (get s)).result <;> simp [Result.mapFault, same]

/-- An event is announced on which it depends whether the rest ends in such a fault. -/
theorem accounts_announce {event : σ → τ} {m : Unit → Prog ε φ τ σ α}
    (holds : A (event s) → Accounts A W (m ()) s)
    (fails : ¬ A (event s) → ∃ x, Faults (m ()) s x ∧ W x) :
    Accounts A W (announce event >>= m) s := by
  change Accounts A W (andThen (announce event) m) s
  unfold Accounts at *
  simp only [andThen, announce, List.cons_append, List.nil_append, List.forall_mem_cons]
  by_cases ok : A (event s)
  · simpa only [ok, true_and] using holds ok
  · obtain ⟨x, faults, wrong⟩ := fails ok
    simp only [ok, false_and, false_iff]
    exact fun none => none x faults wrong

/-- From every state of the invariant the log accounts for the faults, and a run
that returns keeps the invariant. -/
structure KeepsAccounts (I : σ → Prop) (A : τ → Prop) (W : φ → Prop) (m : Prog ε φ τ σ α) :
    Prop where
  keeps : Keeps I m
  accounts : ∀ s, I s → Accounts A W m s

variable {I : σ → Prop}

theorem KeepsAccounts.bind {m : Prog ε φ τ σ α} {f : α → Prog ε φ τ σ β}
    (first : KeepsAccounts I A W m) (next : ∀ a, KeepsAccounts I A W (f a)) :
    KeepsAccounts I A W (m >>= f) where
  keeps := first.keeps.bind fun a => (next a).keeps
  accounts s holds := accounts_bind (first.accounts s holds) fun a s' returns =>
    (next a).accounts s' (first.keeps s a s' holds returns)

theorem keepsAccounts_pure {a : α} : KeepsAccounts I A W (pure a : Prog ε φ τ σ α) :=
  ⟨keeps_pure, fun _ _ => accounts_pure⟩

theorem keepsAccounts_read : KeepsAccounts I A W (read : Prog ε φ τ σ σ) :=
  ⟨keeps_read, fun _ _ => accounts_read⟩

theorem keepsAccounts_update {f : σ → σ} (keeps : ∀ s, I s → I (f s)) :
    KeepsAccounts I A W (update f : Prog ε φ τ σ Unit) :=
  ⟨keeps_update keeps, fun _ _ => accounts_update⟩

theorem keepsAccounts_crash {x : φ} (other : ¬ W x) :
    KeepsAccounts I A W (crash x : Prog ε φ τ σ α) :=
  ⟨keeps_crash, fun _ _ => accounts_crash other⟩

end Prog

end PhpExts.Library
