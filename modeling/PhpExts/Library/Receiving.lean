import Mathlib.Data.List.Basic

/-!
# Receiving a stream in chunks

A function that is called whenever data is there receives one chunk after the other, works
on a state that lives between the calls, and after each chunk returns, gives up or goes on
to the next. `call` is one call and `run` are as many as it takes.

Where the calls end between the chunks does not matter (`run_eq_feed`). An invariant that
relates the state to the stream received so far, and that every receive keeps, holds in the
end whatever the chunks and the calls were (`run_spec`).
-/

namespace PhpExts.Library.Receiving

variable {σ π : Type}

/-- What a receive leads to: the function returns, returns an error, or receives again. -/
inductive Outcome where
  | ok
  | error
  | again
  deriving DecidableEq

/-- The state after a receive, the packages it completes, and how it goes on. -/
structure Receipt (σ π : Type) where
  state : σ
  packages : List π
  outcome : Outcome

structure Received (σ π : Type) where
  state : σ
  packages : List π
  ok : Bool
  rest : List (List UInt8)

/-- One call, with the chunks that are there. -/
def call (receive : σ → List UInt8 → Receipt σ π) : List (List UInt8) → σ → Received σ π
  | [], state => ⟨state, [], true, []⟩
  | chunk :: chunks, state =>
    let step := receive state chunk
    match step.outcome with
    | .ok => ⟨step.state, step.packages, true, chunks⟩
    | .error => ⟨step.state, step.packages, false, chunks⟩
    | .again =>
      let received := call receive chunks step.state
      { received with packages := step.packages ++ received.packages }

/-- A number of calls, until one ends in an error. -/
def run (receive : σ → List UInt8 → Receipt σ π) : Nat → List (List UInt8) → σ → Received σ π
  | 0, chunks, state => ⟨state, [], true, chunks⟩
  | calls + 1, chunks, state =>
    let received := call receive chunks state
    if received.ok then
      let later := run receive calls received.rest received.state
      { later with packages := received.packages ++ later.packages }
    else received

/-- One receive after the other, until one ends in an error. -/
def feed (receive : σ → List UInt8 → Receipt σ π) : List (List UInt8) → σ → Received σ π
  | [], state => ⟨state, [], true, []⟩
  | chunk :: chunks, state =>
    let step := receive state chunk
    if step.outcome = .error then ⟨step.state, step.packages, false, chunks⟩
    else
      let received := feed receive chunks step.state
      { received with packages := step.packages ++ received.packages }

/-- Every chunk is admitted in the state in which it is received, up to an error. -/
def Admits (receive : σ → List UInt8 → Receipt σ π) (admits : σ → List UInt8 → Prop) :
    List (List UInt8) → σ → Prop
  | [], _ => True
  | chunk :: chunks, state =>
    admits state chunk ∧ ((receive state chunk).outcome ≠ .error →
      Admits receive admits chunks (receive state chunk).state)

/-- What holds between the state, the stream received so far and its packages is kept by
every receive, until one ends in an error, for a reason that `closed` states. -/
structure Keeps (receive : σ → List UInt8 → Receipt σ π) (admits : σ → List UInt8 → Prop)
    (holds closed : σ → List UInt8 → List π → Prop) : Prop where
  keeps : ∀ {state stream packages chunk}, holds state stream packages → admits state chunk →
    (receive state chunk).outcome ≠ .error →
      holds (receive state chunk).state (stream ++ chunk)
        (packages ++ (receive state chunk).packages)
  closes : ∀ {state stream packages chunk}, holds state stream packages → admits state chunk →
    (receive state chunk).outcome = .error →
      closed (receive state chunk).state (stream ++ chunk)
        (packages ++ (receive state chunk).packages)

variable {receive : σ → List UInt8 → Receipt σ π} {admits : σ → List UInt8 → Prop}
  {holds closed : σ → List UInt8 → List π → Prop}
  {chunks : List (List UInt8)} {state : σ} {stream : List UInt8} {packages : List π}

theorem Admits.and {admits' : σ → List UInt8 → Prop} (first : Admits receive admits chunks state)
    (second : Admits receive admits' chunks state) :
    Admits receive (fun state chunk => admits state chunk ∧ admits' state chunk) chunks state := by
  induction chunks generalizing state with
  | nil => trivial
  | cons chunk chunks ih =>
    exact ⟨⟨first.1, second.1⟩, fun noError => ih (first.2 noError) (second.2 noError)⟩

theorem rest_call_lt (some : chunks ≠ []) :
    (call receive chunks state).rest.length < chunks.length := by
  induction chunks generalizing state with
  | nil => exact absurd rfl some
  | cons chunk chunks ih =>
    rw [call]
    cases outcome : (receive state chunk).outcome with
    | ok | error => exact Nat.lt_succ_self _
    | again =>
      by_cases none : chunks = []
      · subst none
        exact Nat.zero_lt_one
      · exact Nat.lt_succ_of_lt (ih none)

theorem feed_eq_call (chunks : List (List UInt8)) (state : σ) : feed receive chunks state =
      let received := call receive chunks state
      if received.ok then
        let later := feed receive received.rest received.state
        { later with packages := received.packages ++ later.packages }
      else received := by
  induction chunks generalizing state with
  | nil => rfl
  | cons chunk chunks ih =>
    rw [feed, call]
    cases outcome : (receive state chunk).outcome with
    | ok => rfl
    | error => rfl
    | again =>
      have noError : ¬ Outcome.again = .error := by decide
      simp only [noError, if_false]
      rw [ih]
      dsimp only
      by_cases ok : (call receive chunks (receive state chunk).state).ok = true
      · simp only [ok, if_true, List.append_assoc]
      · simp only [ok, Bool.false_eq_true, if_false]

theorem run_eq_feed {calls : Nat} (enough : chunks.length ≤ calls) :
    run receive calls chunks state = feed receive chunks state := by
  induction calls generalizing chunks state with
  | zero =>
    obtain rfl : chunks = [] := List.length_eq_zero_iff.mp (by omega)
    rfl
  | succ calls ih =>
    have fewer : (call receive chunks state).rest.length ≤ calls := by
      by_cases none : chunks = []
      · subst none
        exact Nat.zero_le _
      · have lt : (call receive chunks state).rest.length < chunks.length := rest_call_lt none
        omega
    rw [run, feed_eq_call, ih fewer]

theorem feed_spec (keeps : Keeps receive admits holds closed) (start : holds state stream packages)
    (admitted : Admits receive admits chunks state) : ((feed receive chunks state).ok = true →
        holds (feed receive chunks state).state (stream ++ chunks.flatten)
          (packages ++ (feed receive chunks state).packages)) ∧
      ((feed receive chunks state).ok = false → ∃ read, read <+: chunks ∧
        closed (feed receive chunks state).state (stream ++ read.flatten)
          (packages ++ (feed receive chunks state).packages)) := by
  induction chunks generalizing state stream packages with
  | nil =>
    refine ⟨fun _ => ?_, nofun⟩
    simpa only [feed, List.flatten_nil, List.append_nil] using start
  | cons chunk chunks ih =>
    obtain ⟨admitted, later⟩ := admitted
    rw [feed]
    by_cases error : (receive state chunk).outcome = .error
    · simp only [error, if_true]
      refine ⟨fun ok => absurd ok Bool.false_ne_true, fun _ => ⟨[chunk], ⟨chunks, rfl⟩, ?_⟩⟩
      simpa only [List.flatten_cons, List.flatten_nil, List.append_nil]
        using keeps.closes start admitted error
    · simp only [error, if_false]
      obtain ⟨held, closes⟩ := ih (keeps.keeps start admitted error) (later error)
      refine ⟨fun ok => ?_, fun ended => ?_⟩
      · simpa only [List.flatten_cons, List.append_assoc] using held ok
      · obtain ⟨read, front, last⟩ := closes ended
        refine ⟨chunk :: read, List.cons_prefix_cons.mpr ⟨rfl, front⟩, ?_⟩
        simpa only [List.flatten_cons, List.append_assoc] using last

/-- **Whatever the chunks and the calls were: without an error the invariant holds of the
whole stream, and with one the reason for it holds of what has been read.** -/
theorem run_spec (keeps : Keeps receive admits holds closed) {calls : Nat}
    (enough : chunks.length ≤ calls) (start : holds state stream packages)
    (admitted : Admits receive admits chunks state) : ((run receive calls chunks state).ok = true →
        holds (run receive calls chunks state).state (stream ++ chunks.flatten)
          (packages ++ (run receive calls chunks state).packages)) ∧
      ((run receive calls chunks state).ok = false → ∃ read, read <+: chunks ∧
        closed (run receive calls chunks state).state (stream ++ read.flatten)
          (packages ++ (run receive calls chunks state).packages)) := by
  rw [run_eq_feed enough]
  exact feed_spec keeps start admitted

end PhpExts.Library.Receiving
