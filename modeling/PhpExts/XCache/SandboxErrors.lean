import Mathlib.Data.List.Basic

/-!
# The errors of a sandbox

While a file is compiled in a sandbox, `xc_sandbox_error_cb` puts off what is only strict or
deprecated: it is kept as a record, to be reported when another error comes, or at the install. The
array grows at each record, by sixteen (the count is never above the size that it is compared
with), and what is allocated are pointers instead of records: 128 bytes for each record, which is
more than it needs. The size is a `zend_uint`, and wraps to zero at the record of number `2 ^ 28`
(`right_iff_short`).
-/

namespace PhpExts.XCache.SandboxErrors

structure Raised where
  type : Nat
  filename : String
  lineno : Nat
  zendLineno : Nat
  message : String

/-- `xc_compilererror_t`, with the text of its length. -/
structure CompilerError where
  type : Nat
  lineno : Nat
  error : String

/-- A report: a call of the callback that was there before, or `zend_error` at the install. -/
inductive Report where
  | callback (type : Nat) (filename : String) (lineno zendLineno : Nat) (message : String)
  | zendError (type zendLineno : Nat) (message : String)

inductive Fault where
  | outside
  | lost

/-- The part of `xc_sandbox_t` that has the errors, with the bytes that are allocated. -/
structure Sandbox where
  compilererrorCnt : Nat
  compilererrorSize : Nat
  allocated : Nat
  compilererrors : Nat → Option CompilerError

def xcSandboxInit : Sandbox := ⟨0, 0, 0, fun _ => none⟩

/-- `E_STRICT` and `E_DEPRECATED`. -/
def Raised.Cacheable (raised : Raised) : Prop := raised.type = 2048 ∨ raised.type = 8192

instance (raised : Raised) : Decidable raised.Cacheable :=
  inferInstanceAs (Decidable (_ ∨ _))

/-- The growth of the array, by pointers of eight bytes. A reallocation keeps the records that fit
into it. -/
def Sandbox.grow (recordSize : Nat) (sandbox : Sandbox) : Sandbox :=
  if sandbox.compilererrorSize ≠ 0 then
    let size := (sandbox.compilererrorSize + 16) % 0x100000000
    { sandbox with
      compilererrorSize := size
      allocated := size * 8
      compilererrors := fun i =>
        if (i + 1) * recordSize ≤ size * 8 then sandbox.compilererrors i else none }
  else
    { sandbox with compilererrorSize := 16, allocated := 16 * 8, compilererrors := fun _ => none }

def recordsFrom (sandbox : Sandbox) : Nat → Nat → Except Fault (List CompilerError)
  | 0, _ => .ok []
  | left + 1, i =>
    match sandbox.compilererrors i with
    | none => .error .lost
    | some compilererror => (recordsFrom sandbox left (i + 1)).map (compilererror :: ·)

def Raised.record (raised : Raised) : CompilerError :=
  ⟨raised.type, raised.lineno, raised.message⟩

def Raised.replay (raised : Raised) (compilererror : CompilerError) : Report :=
  .callback compilererror.type raised.filename raised.lineno compilererror.lineno
    compilererror.error

def Raised.report (raised : Raised) : Report :=
  .callback raised.type raised.filename raised.lineno raised.zendLineno raised.message

/-- `xc_sandbox_error_cb`, with the reports that it makes. -/
def xcSandboxErrorCb (recordSize : Nat) (raised : Raised) (sandbox : Sandbox) :
    Except Fault (Sandbox × List Report) :=
  if raised.Cacheable then
    let sandbox := if sandbox.compilererrorCnt ≤ sandbox.compilererrorSize then
      sandbox.grow recordSize else sandbox
    if (sandbox.compilererrorCnt + 1) * recordSize ≤ sandbox.allocated then
      .ok ({ sandbox with
        compilererrorCnt := (sandbox.compilererrorCnt + 1) % 0x100000000
        compilererrors := Function.update sandbox.compilererrors sandbox.compilererrorCnt
          (some raised.record) }, [])
    else .error .outside
  else
    (recordsFrom sandbox sandbox.compilererrorCnt 0).map fun records =>
      (xcSandboxInit, records.map raised.replay ++ [raised.report])

def CompilerError.zendError (compilererror : CompilerError) : Report :=
  .zendError compilererror.type compilererror.lineno compilererror.error

/-- What `xc_sandbox_install` reports. -/
def xcSandboxInstall (sandbox : Sandbox) : Except Fault (List Report) :=
  (recordsFrom sandbox sandbox.compilererrorCnt 0).map (·.map CompilerError.zendError)

/-- The reports of a sandbox in which these errors are raised before it is installed. -/
def run (recordSize : Nat) : List Raised → Sandbox → Except Fault (List Report)
  | [], sandbox => xcSandboxInstall sandbox
  | raised :: errors, sandbox =>
    match xcSandboxErrorCb recordSize raised sandbox with
    | .error fault => .error fault
    | .ok (sandbox, reports) => (run recordSize errors sandbox).map (reports ++ ·)

/-! ## What is to be reported -/

/-- The reports that are due, with what is put off already. -/
def due : List CompilerError → List Raised → List Report
  | pending, [] => pending.map CompilerError.zendError
  | pending, raised :: errors =>
    if raised.Cacheable then due (pending ++ [raised.record]) errors
    else pending.map raised.replay ++ raised.report :: due [] errors

def Right (recordSize : Nat) (errors : List Raised) : Prop :=
  run recordSize errors xcSandboxInit = .ok (due [] errors)

def Report.content : Report → Nat × String
  | callback type _ _ _ message => (type, message)
  | zendError type _ message => (type, message)

theorem due_content : ∀ (pending : List CompilerError) (errors : List Raised),
    (due pending errors).map Report.content
      = pending.map (fun record => (record.type, record.error))
        ++ errors.map fun raised => (raised.type, raised.message)
  | pending, [] => by simp [due, CompilerError.zendError, Report.content, Function.comp_def]
  | pending, raised :: errors => by
    rw [due]
    split_ifs
    · rw [due_content]
      simp [Raised.record]
    · simp [due_content [] errors, Raised.replay, Raised.report, Report.content,
        Function.comp_def]

/-- Less than `2 ^ 28` errors in a row are put off, where so many are already. -/
def Short : Nat → List Raised → Prop
  | _, [] => True
  | pending, raised :: errors =>
    if raised.Cacheable then pending + 1 < 0x10000000 ∧ Short (pending + 1) errors
    else Short 0 errors

structure Sandbox.Holds (sandbox : Sandbox) (pending : List CompilerError) : Prop where
  cnt : sandbox.compilererrorCnt = pending.length
  size : sandbox.compilererrorSize = 16 * pending.length
  few : pending.length < 0x10000000
  records : ∀ i, i < pending.length → sandbox.compilererrors i = pending[i]?

theorem holds_init : xcSandboxInit.Holds [] :=
  ⟨rfl, rfl, by decide, fun _ below => absurd below (Nat.not_lt_zero _)⟩

variable {recordSize : Nat} {sandbox : Sandbox} {pending : List CompilerError} {raised : Raised}

theorem recordsFrom_eq (holds : sandbox.Holds pending) : ∀ (left i : Nat),
    left + i = pending.length → recordsFrom sandbox left i = .ok (pending.drop i)
  | 0, i, all => by rw [recordsFrom, List.drop_eq_nil_of_le (by omega)]
  | left + 1, i, all => by
    have below : i < pending.length := by omega
    rw [recordsFrom, holds.records i below, List.getElem?_eq_getElem below,
      List.drop_eq_getElem_cons below]
    simp only [recordsFrom_eq holds left (i + 1) (by omega)]
    rfl

theorem records_eq (holds : sandbox.Holds pending) :
    recordsFrom sandbox sandbox.compilererrorCnt 0 = .ok pending :=
  recordsFrom_eq holds _ 0 holds.cnt

theorem grow_eq (holds : sandbox.Holds pending) (most : recordSize ≤ 32) :
    (sandbox.grow recordSize).compilererrorCnt = pending.length
      ∧ (sandbox.grow recordSize).compilererrorSize = 16 * (pending.length + 1) % 0x100000000
      ∧ (sandbox.grow recordSize).allocated = 16 * (pending.length + 1) % 0x100000000 * 8
      ∧ (pending.length + 1 < 0x10000000 → ∀ i, i < pending.length →
        (sandbox.grow recordSize).compilererrors i = pending[i]?) := by
  have size := holds.size
  have few := holds.few
  rw [Sandbox.grow]
  split_ifs with empty
  · have next : 16 * (pending.length + 1) = sandbox.compilererrorSize + 16 := by omega
    refine ⟨holds.cnt, by rw [next], by rw [next], fun short i below => ?_⟩
    have fits : (i + 1) * recordSize ≤ (i + 1) * 32 := Nat.mul_le_mul_left _ most
    rw [← holds.records i below]
    exact if_pos (by omega)
  · have none : pending.length = 0 := by omega
    exact ⟨holds.cnt, by rw [none], by rw [none],
      fun _ i below => absurd below (by omega)⟩

theorem errorCb_cacheable (holds : sandbox.Holds pending) (most : recordSize ≤ 32)
    (cacheable : raised.Cacheable) (short : pending.length + 1 < 0x10000000) :
    ∃ sandbox', xcSandboxErrorCb recordSize raised sandbox = .ok (sandbox', [])
      ∧ sandbox'.Holds (pending ++ [raised.record]) := by
  obtain ⟨cnt, size, allocated, records⟩ := grow_eq holds most
  have fits : (pending.length + 1) * recordSize ≤ (pending.length + 1) * 32 :=
    Nat.mul_le_mul_left _ most
  have never : sandbox.compilererrorCnt ≤ sandbox.compilererrorSize := by
    rw [holds.cnt, holds.size]
    omega
  rw [xcSandboxErrorCb, if_pos cacheable, if_pos never]
  simp only [cnt]
  rw [if_pos (by omega)]
  refine ⟨_, rfl, ?_, ?_, ?_, ?_⟩
  · rw [List.length_append, List.length_singleton, Nat.mod_eq_of_lt (by omega)]
  · rw [List.length_append, List.length_singleton, size, Nat.mod_eq_of_lt (by omega)]
  · rwa [List.length_append, List.length_singleton]
  · intro i below
    rw [List.length_append, List.length_singleton] at below
    simp only
    rcases Nat.lt_succ_iff_lt_or_eq.mp below with before | rfl
    · rw [Function.update_of_ne (Nat.ne_of_lt before), List.getElem?_append_left before]
      exact records short i before
    · rw [Function.update_self, List.getElem?_concat_length]

theorem errorCb_wrapped (holds : sandbox.Holds pending) (positive : 0 < recordSize)
    (most : recordSize ≤ 32) (cacheable : raised.Cacheable)
    (long : ¬ pending.length + 1 < 0x10000000) :
    xcSandboxErrorCb recordSize raised sandbox = .error .outside := by
  obtain ⟨cnt, -, allocated, -⟩ := grow_eq holds most
  have few := holds.few
  have needed : 0 < (pending.length + 1) * recordSize := Nat.mul_pos (Nat.succ_pos _) positive
  have never : sandbox.compilererrorCnt ≤ sandbox.compilererrorSize := by
    rw [holds.cnt, holds.size]
    omega
  rw [xcSandboxErrorCb, if_pos cacheable, if_pos never]
  simp only [cnt]
  rw [if_neg (by omega)]

theorem errorCb_other (holds : sandbox.Holds pending) (other : ¬ raised.Cacheable) :
    xcSandboxErrorCb recordSize raised sandbox
      = .ok (xcSandboxInit, pending.map raised.replay ++ [raised.report]) := by
  rw [xcSandboxErrorCb, if_neg other, records_eq holds]
  rfl

theorem ok_of_map {α β : Type} {f : α → β} {b : β} : ∀ {x : Except Fault α},
    x.map f = .ok b → ∃ a, x = .ok a
  | .ok a, _ => ⟨a, rfl⟩

theorem run_of_short (most : recordSize ≤ 32) : ∀ {errors : List Raised} {sandbox : Sandbox}
    {pending : List CompilerError}, sandbox.Holds pending → Short pending.length errors →
    run recordSize errors sandbox = .ok (due pending errors)
  | [], sandbox, pending, holds, _ => by
    rw [run, xcSandboxInstall, records_eq holds]
    rfl
  | raised :: errors, sandbox, pending, holds, short => by
    rw [run, due]
    rw [Short] at short
    by_cases cacheable : raised.Cacheable
    · rw [if_pos cacheable] at short ⊢
      obtain ⟨sandbox', step, holds'⟩ := errorCb_cacheable holds most cacheable short.1
      rw [step]
      simp only
      rw [run_of_short most holds' (by simpa using short.2)]
      rfl
    · rw [if_neg cacheable] at short ⊢
      rw [errorCb_other holds cacheable]
      simp only
      rw [run_of_short most holds_init short]
      simp [Except.map]

theorem short_of_run (positive : 0 < recordSize) (most : recordSize ≤ 32) :
    ∀ {errors : List Raised} {sandbox : Sandbox} {pending : List CompilerError}
      {reports : List Report}, sandbox.Holds pending →
      run recordSize errors sandbox = .ok reports → Short pending.length errors
  | [], _, _, _, _, _ => trivial
  | raised :: errors, sandbox, pending, reports, holds, returns => by
    rw [run] at returns
    rw [Short]
    by_cases cacheable : raised.Cacheable
    · rw [if_pos cacheable]
      by_cases short : pending.length + 1 < 0x10000000
      · obtain ⟨sandbox', step, holds'⟩ := errorCb_cacheable holds most cacheable short
        rw [step] at returns
        obtain ⟨rest, returns'⟩ := ok_of_map returns
        exact ⟨short, by simpa using short_of_run positive most holds' returns'⟩
      · rw [errorCb_wrapped holds positive most cacheable short] at returns
        cases returns
    · rw [if_neg cacheable]
      rw [errorCb_other holds cacheable] at returns
      obtain ⟨rest, returns'⟩ := ok_of_map returns
      exact short_of_run positive most holds_init returns'

/-- The errors are kept and reported exactly where less than `2 ^ 28` are put off in a row; and the
reports are all of them, once each and in order. -/
theorem right_iff_short (positive : 0 < recordSize) (most : recordSize ≤ 32)
    (errors : List Raised) : (Right recordSize errors ↔ Short 0 errors)
      ∧ (due [] errors).map Report.content
        = errors.map fun raised => (raised.type, raised.message) :=
  ⟨⟨short_of_run positive most holds_init, run_of_short most holds_init⟩, due_content [] errors⟩

theorem right_strict_warning :
    Right 24 [⟨2048, "a.php", 3, 3, "strict"⟩, ⟨2, "a.php", 4, 4, "warning"⟩] :=
  ((right_iff_short (by decide) (by decide) _).1).mpr ⟨by decide, trivial⟩

theorem lt_of_short (cacheable : raised.Cacheable) : ∀ {n pending : Nat},
    Short pending (List.replicate (n + 1) raised) → pending + (n + 1) < 0x10000000
  | 0, pending, short => by
    rw [List.replicate_succ, Short, if_pos cacheable] at short
    exact short.1
  | n + 1, pending, short => by
    rw [List.replicate_succ, Short, if_pos cacheable] at short
    have := lt_of_short cacheable short.2
    omega

theorem not_right_row : ¬ ∀ errors, Right 24 errors := by
  intro right
  have short := short_of_run (by decide) (by decide) holds_init
    (right (List.replicate (0xFFFFFFF + 1) ⟨8192, "a.php", 1, 1, "deprecated"⟩))
  exact absurd (lt_of_short (.inr rfl) short) (by decide)

end PhpExts.XCache.SandboxErrors
