import PhpExts.Library.BigEndian
import PhpExts.Library.Receiving
import Mathlib.Algebra.Order.Ring.Int

/-!
# Packages that announce their length

`swProtocol_recv_check_length` first receives as many bytes as there are up to the end of
the length field, and then what the package lacks. What is left behind a package is moved
to the front by way of an array of 8192 bytes.

In whatever pieces a stream arrives, the packages are those that their lengths announce,
and the connection ends exactly at a length that is negative or too large, if and only if
no package has the length zero, which stands for "no length yet", and the bytes up to the
length field fit behind what the buffer holds (`correct_iff_fits`).
-/

namespace PhpExts.Swoole.LengthProtocol

open PhpExts.Library PhpExts.Library.Receiving
open List (length_append length_drop)

inductive LengthType where
  | c
  | C
  | s
  | S
  | n
  | v
  | l
  | L
  | N
  | V
  deriving DecidableEq

def swooleTypeSize : LengthType → Nat
  | .c | .C => 1
  | .s | .S | .n | .v => 2
  | .l | .L | .N | .V => 4

/-- The members of `swProtocol` that count here. -/
structure Protocol where
  packageLengthType : LengthType
  packageLengthOffset : Nat
  packageBodyOffset : Nat
  packageMaxLength : Nat

def Protocol.packageLengthSize (protocol : Protocol) : Nat :=
  swooleTypeSize protocol.packageLengthType

/-- The number of `k` bits as a signed one. -/
def signed (k n : Nat) : Int := if n < 2 ^ (k - 1) then n else n - 2 ^ k

/-- `swoole_unpack`, where the machine's byte order is little-endian. -/
def swooleUnpack (type : LengthType) (data : List UInt8) : Int :=
  let little (k : Nat) : Nat := ofBigEndian (data.take k).reverse
  let big (k : Nat) : Nat := ofBigEndian (data.take k)
  match type with
  | .c => signed 8 (little 1)
  | .C => little 1
  | .s => signed 16 (little 2)
  | .S => little 2
  | .n => big 2
  | .v => little 2
  | .L => signed 32 (little 4)
  | .l => signed 32 (little 4)
  | .N => signed 32 (big 4)
  | .V => signed 32 (little 4)

/-- The conversion to `int`. -/
def asInt (x : Int) : Int := (x + 2 ^ 31) % 2 ^ 32 - 2 ^ 31

/-- `swProtocol_get_package_length`; `SW_ERR` is `-1`. -/
def swProtocolGetPackageLength (protocol : Protocol) (data : List UInt8) : Int :=
  if data.length < protocol.packageLengthOffset + protocol.packageLengthSize then 0
  else
    let bodyLength :=
      swooleUnpack protocol.packageLengthType (data.drop protocol.packageLengthOffset)
    if bodyLength < 0 then -1 else asInt (protocol.packageBodyOffset + bodyLength)

/-- `swString` with the bytes it holds, and `conn->recv_wait`. `fault` says that more bytes
than it has room for have been written to it, or that the assertion about `swap` has failed. -/
structure Buffer where
  content : List UInt8
  size : Nat
  offset : Nat
  recvWait : Bool
  fault : Bool

def recvSize (protocol : Protocol) (buffer : Buffer) : Nat :=
  if 0 < buffer.offset then buffer.offset - buffer.content.length
  else protocol.packageLengthOffset + protocol.packageLengthSize

/-- From the label `do_dispatch` on; `getLength` is what stands at `do_get_length`. -/
def doDispatch (getLength : Buffer → Receipt Buffer (List UInt8)) (buffer : Buffer) :
    Receipt Buffer (List UInt8) :=
  let package := buffer.content.take buffer.offset
  let remaining := buffer.content.drop buffer.offset
  if 0 < remaining.length then
    let step := getLength
      { buffer with
        content := remaining, offset := 0, recvWait := false
        fault := buffer.fault || decide (8192 ≤ remaining.length) }
    { step with packages := package :: step.packages }
  else ⟨{ buffer with content := [], offset := 0, recvWait := false }, [package], .again⟩

/-- From the label `do_get_length` on. -/
def doGetLength (protocol : Protocol) : Nat → Buffer → Receipt Buffer (List UInt8)
  | 0, buffer => ⟨buffer, [], .ok⟩
  | fuel + 1, buffer =>
    let packageLength := swProtocolGetPackageLength protocol buffer.content
    if packageLength < 0 then ⟨buffer, [], .error⟩
    else if packageLength = 0 then ⟨buffer, [], .ok⟩
    else if (protocol.packageMaxLength : Int) < packageLength then ⟨buffer, [], .error⟩
    else
      let sized :=
        { buffer with
          size := max buffer.size packageLength.toNat
          recvWait := true
          offset := packageLength.toNat }
      if packageLength ≤ buffer.content.length then doDispatch (doGetLength protocol fuel) sized
      else ⟨sized, [], .again⟩

/-- `swProtocol_recv_check_length` for one receive, from `do_recv` on; `call` is the loop.
Every round of the labels takes a byte at least. -/
def swProtocolRecvCheckLength (protocol : Protocol) (buffer : Buffer) (chunk : List UInt8) :
    Receipt Buffer (List UInt8) :=
  let filled :=
    { buffer with
      content := buffer.content ++ chunk
      fault := buffer.fault || decide (buffer.size < (buffer.content ++ chunk).length) }
  if filled.recvWait then
    if filled.offset ≤ filled.content.length then
      doDispatch (doGetLength protocol (filled.content.length + 1)) filled
    else ⟨filled, [], .ok⟩
  else doGetLength protocol (filled.content.length + 1) filled

/-! ## The packages of a stream -/

/-- How a stream ends: with a rest that is not a whole package, or with a length for which
the connection ends. -/
inductive End where
  | rest (bytes : List UInt8)
  | closed

/-- The packages of a stream, and its end. A package of the length zero has no place. -/
inductive Packages (protocol : Protocol) : List UInt8 → List (List UInt8) → End → Prop
  | short {stream : List UInt8}
      (short : stream.length < protocol.packageLengthOffset + protocol.packageLengthSize) :
      Packages protocol stream [] (.rest stream)
  | waiting {stream : List UInt8}
      (long : protocol.packageLengthOffset + protocol.packageLengthSize ≤ stream.length)
      (within : swProtocolGetPackageLength protocol stream ≤ protocol.packageMaxLength)
      (waiting : stream.length < swProtocolGetPackageLength protocol stream) :
      Packages protocol stream [] (.rest stream)
  | closed {stream : List UInt8}
      (long : protocol.packageLengthOffset + protocol.packageLengthSize ≤ stream.length)
      (bad : swProtocolGetPackageLength protocol stream < 0 ∨
        protocol.packageMaxLength < swProtocolGetPackageLength protocol stream) :
      Packages protocol stream [] .closed
  | package {stream : List UInt8} {n : Nat} {packages : List (List UInt8)} {last : End}
      (long : protocol.packageLengthOffset + protocol.packageLengthSize ≤ stream.length)
      (announced : swProtocolGetPackageLength protocol stream = n) (positive : 0 < n)
      (within : n ≤ protocol.packageMaxLength) (whole : n ≤ stream.length)
      (others : Packages protocol (stream.drop n) packages last) :
      Packages protocol stream (stream.take n :: packages) last

inductive Stalls (protocol : Protocol) : List UInt8 → Prop
  | zero {stream : List UInt8}
      (long : protocol.packageLengthOffset + protocol.packageLengthSize ≤ stream.length)
      (zero : swProtocolGetPackageLength protocol stream = 0) : Stalls protocol stream
  | package {stream : List UInt8} {n : Nat}
      (long : protocol.packageLengthOffset + protocol.packageLengthSize ≤ stream.length)
      (announced : swProtocolGetPackageLength protocol stream = n) (positive : 0 < n)
      (within : n ≤ protocol.packageMaxLength) (whole : n ≤ stream.length)
      (others : Stalls protocol (stream.drop n)) : Stalls protocol stream

variable {protocol : Protocol} {stream more : List UInt8} {packages packages' : List (List UInt8)}
  {last last' : End}

theorem swooleUnpack_append {type : LengthType} {data : List UInt8}
    (long : swooleTypeSize type ≤ data.length) :
    swooleUnpack type (data ++ more) = swooleUnpack type data := by
  cases type <;> simp only [swooleTypeSize] at long <;>
    simp only [swooleUnpack, List.take_append_of_le_length long]

theorem getPackageLength_append
    (long : protocol.packageLengthOffset + protocol.packageLengthSize ≤ stream.length) :
    swProtocolGetPackageLength protocol (stream ++ more) =
      swProtocolGetPackageLength protocol stream := by
  have field : swooleTypeSize protocol.packageLengthType ≤
      (stream.drop protocol.packageLengthOffset).length := by
    unfold Protocol.packageLengthSize at long
    rw [length_drop]
    omega
  have short : ¬ stream.length < protocol.packageLengthOffset + protocol.packageLengthSize := by
    omega
  have short' : ¬ (stream ++ more).length <
      protocol.packageLengthOffset + protocol.packageLengthSize := by
    rw [length_append]
    omega
  rw [swProtocolGetPackageLength, swProtocolGetPackageLength, if_neg short, if_neg short',
    List.drop_append_of_le_length (by omega), swooleUnpack_append field]

theorem getPackageLength_short
    (short : stream.length < protocol.packageLengthOffset + protocol.packageLengthSize) :
    swProtocolGetPackageLength protocol stream = 0 := if_pos short

theorem le_length_of_getPackageLength (some : swProtocolGetPackageLength protocol stream ≠ 0) :
    protocol.packageLengthOffset + protocol.packageLengthSize ≤ stream.length := by
  by_contra short
  exact some (getPackageLength_short (by omega))

theorem Packages.package_append {n : Nat}
    (long : protocol.packageLengthOffset + protocol.packageLengthSize ≤ stream.length)
    (announced : swProtocolGetPackageLength protocol stream = n) (positive : 0 < n)
    (within : n ≤ protocol.packageMaxLength) (whole : n ≤ stream.length)
    (others : Packages protocol (stream.drop n ++ more) packages last) :
    Packages protocol (stream ++ more) (stream.take n :: packages) last := by
  rw [← List.take_append_of_le_length whole]
  refine .package ?_ ((getPackageLength_append long).trans announced) positive within ?_ ?_
  · rw [length_append]
    omega
  · rw [length_append]
    omega
  · rwa [List.drop_append_of_le_length whole]

theorem Stalls.package_append {n : Nat}
    (long : protocol.packageLengthOffset + protocol.packageLengthSize ≤ stream.length)
    (announced : swProtocolGetPackageLength protocol stream = n) (positive : 0 < n)
    (within : n ≤ protocol.packageMaxLength) (whole : n ≤ stream.length)
    (others : Stalls protocol (stream.drop n ++ more)) : Stalls protocol (stream ++ more) := by
  refine .package ?_ ((getPackageLength_append long).trans announced) positive within ?_ ?_
  · rw [length_append]
    omega
  · rw [length_append]
    omega
  · rwa [List.drop_append_of_le_length whole]

theorem Packages.unique (first : Packages protocol stream packages last)
    (second : Packages protocol stream packages' last') : packages = packages' ∧ last = last' := by
  induction first generalizing packages' last' with
  | short short =>
    cases second with
    | short => exact ⟨rfl, rfl⟩
    | waiting long | closed long | package long => omega
  | waiting long within waiting =>
    cases second with
    | short short => omega
    | waiting => exact ⟨rfl, rfl⟩
    | closed _ bad => omega
    | package _ announced _ _ whole => omega
  | closed long bad =>
    cases second with
    | short short => omega
    | waiting _ within waiting => omega
    | closed => exact ⟨rfl, rfl⟩
    | package _ announced _ within' _ => omega
  | package long announced positive within whole others ih =>
    cases second with
    | short short => omega
    | waiting _ _ waiting => omega
    | closed _ bad => omega
    | package _ announced' _ _ _ others' =>
      obtain rfl := Int.ofNat.inj (announced.symm.trans announced')
      obtain ⟨rfl, rfl⟩ := ih others'
      exact ⟨rfl, rfl⟩

theorem Packages.append {rest : List UInt8} (first : Packages protocol stream packages (.rest rest))
    (second : Packages protocol (rest ++ more) packages' last) :
    Packages protocol (stream ++ more) (packages ++ packages') last := by
  generalize ends : End.rest rest = kept at first
  induction first with
  | short | waiting =>
    obtain rfl := End.rest.inj ends
    exact second
  | closed => cases ends
  | package long announced positive within whole others ih =>
    exact .package_append long announced positive within whole (ih ends)

theorem Packages.append_closed (first : Packages protocol stream packages .closed) :
    Packages protocol (stream ++ more) packages .closed := by
  generalize ends : End.closed = kept at first
  induction first with
  | short | waiting => cases ends
  | closed long bad =>
    refine .closed ?_ ?_
    · rw [length_append]
      omega
    · rwa [getPackageLength_append long]
  | package long announced positive within whole others ih =>
    exact .package_append long announced positive within whole (ih ends)

theorem Stalls.append (stalls : Stalls protocol stream) : Stalls protocol (stream ++ more) := by
  induction stalls with
  | zero long zero =>
    refine .zero ?_ ((getPackageLength_append long).trans zero)
    rw [length_append]
    omega
  | package long announced positive within whole others ih =>
    exact .package_append long announced positive within whole ih

theorem Packages.not_stalls (read : Packages protocol stream packages last) :
    ¬ Stalls protocol stream := by
  induction read with
  | short short =>
    rintro (⟨long, -⟩ | ⟨long⟩)
    · omega
    · omega
  | waiting long within waiting =>
    rintro (⟨-, zero⟩ | ⟨-, announced, -, -, whole⟩)
    · omega
    · omega
  | closed long bad =>
    rintro (⟨-, zero⟩ | ⟨-, announced, -, within⟩)
    · omega
    · omega
  | package long announced positive within whole others ih =>
    rintro (⟨-, zero⟩ | ⟨-, announced', -, -, -, later⟩)
    · omega
    · obtain rfl := Int.ofNat.inj (announced.symm.trans announced')
      exact ih later

theorem Stalls.of_rest {rest : List UInt8} (first : Packages protocol stream packages (.rest rest))
    (stalls : Stalls protocol (rest ++ more)) : Stalls protocol (stream ++ more) := by
  generalize ends : End.rest rest = kept at first
  induction first with
  | short | waiting =>
    obtain rfl := End.rest.inj ends
    exact stalls
  | closed => cases ends
  | package long announced positive within whole others ih =>
    exact .package_append long announced positive within whole (ih ends)

variable {buffer : Buffer} {chunk : List UInt8}

structure Pending (protocol : Protocol) (buffer : Buffer) : Prop where
  fault : buffer.fault = false
  length : buffer.content.length ≤ buffer.size
  phase : buffer.recvWait = false ∧ buffer.offset = 0 ∧
      buffer.content.length < protocol.packageLengthOffset + protocol.packageLengthSize ∨
    buffer.recvWait = true ∧
      protocol.packageLengthOffset + protocol.packageLengthSize ≤ buffer.content.length ∧
      swProtocolGetPackageLength protocol buffer.content = buffer.offset ∧
      buffer.content.length < buffer.offset ∧ buffer.offset ≤ buffer.size ∧
      buffer.offset ≤ protocol.packageMaxLength

/-- What is left behind the first package fits in `swap`. -/
def Swaps (protocol : Protocol) (content : List UInt8) : Prop :=
  0 < swProtocolGetPackageLength protocol content →
    swProtocolGetPackageLength protocol content ≤ protocol.packageMaxLength →
      swProtocolGetPackageLength protocol content ≤ content.length →
        content.length < 8192 + swProtocolGetPackageLength protocol content

instance {content : List UInt8} : Decidable (Swaps protocol content) :=
  inferInstanceAs (Decidable (_ → _))

structure Handled (protocol : Protocol) (content : List UInt8)
    (step : Receipt Buffer (List UInt8)) : Prop where
  fault : step.state.fault = false
  closed : step.outcome = .error → Packages protocol content step.packages .closed
  kept : step.outcome ≠ .error → Pending protocol step.state ∧
    Packages protocol content step.packages (.rest step.state.content)

theorem packageLengthSize_pos : 0 < protocol.packageLengthSize := by
  unfold Protocol.packageLengthSize
  cases protocol.packageLengthType <;> decide

theorem doDispatch_spec {getLength : Buffer → Receipt Buffer (List UInt8)}
    (fault : buffer.fault = false)
    (announced : swProtocolGetPackageLength protocol buffer.content = buffer.offset)
    (positive : 0 < buffer.offset) (within : buffer.offset ≤ protocol.packageMaxLength)
    (whole : buffer.offset ≤ buffer.content.length)
    (swaps : buffer.content.length < 8192 + buffer.offset)
    (others : 0 < (buffer.content.drop buffer.offset).length →
      Handled protocol (buffer.content.drop buffer.offset)
        (getLength ⟨buffer.content.drop buffer.offset, buffer.size, 0, false, false⟩)) :
    Handled protocol buffer.content (doDispatch getLength buffer) := by
  have long : protocol.packageLengthOffset + protocol.packageLengthSize ≤ buffer.content.length :=
    le_length_of_getPackageLength (by omega)
  rw [doDispatch]
  by_cases some : 0 < (buffer.content.drop buffer.offset).length
  · have few : ¬ 8192 ≤ (buffer.content.drop buffer.offset).length := by
      rw [length_drop]
      omega
    obtain ⟨fault', closed, kept⟩ := others some
    simp only [some, if_true, fault, few, decide_false, Bool.or_self]
    exact ⟨fault', fun error => .package long announced positive within whole (closed error),
      fun noError => ⟨(kept noError).1, .package long announced positive within whole (kept noError).2⟩⟩
  · have header := @packageLengthSize_pos protocol
    have short : ([] : List UInt8).length <
        protocol.packageLengthOffset + protocol.packageLengthSize := by
      rw [List.length_nil]
      omega
    have nothing : buffer.content.drop buffer.offset = [] :=
      List.length_eq_zero_iff.mp (by omega)
    simp only [some, if_false]
    refine ⟨fault, fun error => (by cases error), fun _ => ⟨⟨fault, Nat.zero_le _, .inl ⟨rfl, rfl, short⟩⟩, ?_⟩⟩
    refine .package long announced positive within whole ?_
    rw [nothing]
    exact .short short

theorem doGetLength_spec (fuel : Nat) (enough : buffer.content.length < fuel)
    (fault : buffer.fault = false) (length : buffer.content.length ≤ buffer.size)
    (recvWait : buffer.recvWait = false) (offset : buffer.offset = 0)
    (swaps : Swaps protocol buffer.content) (flows : ¬ Stalls protocol buffer.content) :
    Handled protocol buffer.content (doGetLength protocol fuel buffer) := by
  induction fuel generalizing buffer with
  | zero => exact absurd enough (Nat.not_lt_zero _)
  | succ fuel ih =>
    rw [doGetLength]
    by_cases short : buffer.content.length <
        protocol.packageLengthOffset + protocol.packageLengthSize
    · have zero := getPackageLength_short short
      simp only [zero, lt_irrefl, if_false, if_true]
      exact ⟨fault, fun error => (by cases error),
        fun _ => ⟨⟨fault, length, .inl ⟨recvWait, offset, short⟩⟩, .short short⟩⟩
    · have long := Nat.le_of_not_lt short
      have nonzero : ¬ swProtocolGetPackageLength protocol buffer.content = 0 := fun zero =>
        flows (.zero long zero)
      by_cases negative : swProtocolGetPackageLength protocol buffer.content < 0
      · simp only [negative, if_true]
        exact ⟨fault, fun _ => .closed long (.inl negative), fun noError => absurd rfl noError⟩
      · simp only [negative, nonzero, if_false]
        by_cases large :
            (protocol.packageMaxLength : Int) < swProtocolGetPackageLength protocol buffer.content
        · simp only [large, if_true]
          exact ⟨fault, fun _ => .closed long (.inr large), fun noError => absurd rfl noError⟩
        · simp only [large, if_false]
          obtain ⟨n, announced⟩ := Int.eq_ofNat_of_zero_le (Int.not_lt.mp negative)
          unfold Swaps at swaps
          simp only [announced, Int.toNat_natCast] at nonzero large swaps ⊢
          by_cases whole : (n : Int) ≤ buffer.content.length
          · simp only [whole, if_true]
            refine @doDispatch_spec protocol ⟨buffer.content, max buffer.size n, n, true, buffer.fault⟩ _
              fault announced ?_ ?_ ?_ ?_ fun _ => ?_
            · simp only
              omega
            · simp only
              omega
            · simp only
              omega
            · simp only
              omega
            · refine @ih ⟨buffer.content.drop n, max buffer.size n, 0, false, false⟩
                ?_ rfl ?_ rfl rfl ?_ ?_
              · simp only [length_drop]
                omega
              · simp only [length_drop]
                omega
              · intro positive _ _
                have fits := swaps (by omega) (by omega) whole
                simp only [length_drop] at positive ⊢
                omega
              · exact fun stalls => flows (.package long announced (by omega) (by omega) (by omega) stalls)
          · simp only [whole, if_false]
            refine ⟨fault, fun error => (by cases error), fun _ => ⟨⟨fault, ?_, .inr ⟨rfl, long, announced, ?_⟩⟩, ?_⟩⟩
            · simp only
              omega
            · simp only
              omega
            · exact .waiting long (by omega) (by omega)

/-- What a receive may bring: something, and no more than has been asked for. -/
def Arrives (protocol : Protocol) (buffer : Buffer) (chunk : List UInt8) : Prop :=
  chunk ≠ [] ∧ chunk.length ≤ recvSize protocol buffer

instance : Decidable (Arrives protocol buffer chunk) := inferInstanceAs (Decidable (_ ∧ _))

/-- The bytes fit in the buffer, those behind the first package fit in `swap`, and no
package of the length zero is reached. -/
structure Fits (protocol : Protocol) (buffer : Buffer) (chunk : List UInt8) : Prop where
  room : (buffer.content ++ chunk).length ≤ buffer.size
  swaps : Swaps protocol (buffer.content ++ chunk)
  flows : ¬ Stalls protocol (buffer.content ++ chunk)

theorem recvCheckLength_spec (pending : Pending protocol buffer)
    (arrives : Arrives protocol buffer chunk) (fits : Fits protocol buffer chunk) :
    Handled protocol (buffer.content ++ chunk) (swProtocolRecvCheckLength protocol buffer chunk) := by
  obtain ⟨fault, length, phase⟩ := pending
  obtain ⟨room, swaps, flows⟩ := fits
  have few := arrives.2
  have inside : ¬ buffer.size < (buffer.content ++ chunk).length := by omega
  rw [swProtocolRecvCheckLength]
  simp only [fault, inside, decide_false, Bool.or_self]
  rcases phase with ⟨recvWait, offset, short⟩ | ⟨recvWait, long, announced, waiting, size, within⟩
  · simp only [recvWait, Bool.false_eq_true, if_false]
    exact @doGetLength_spec protocol ⟨buffer.content ++ chunk, buffer.size, buffer.offset, _, _⟩ _
      (Nat.lt_succ_self _) rfl room rfl offset swaps flows
  · have length : (buffer.content ++ chunk).length = buffer.content.length + chunk.length :=
      length_append
    have positive : 0 < buffer.offset := by omega
    rw [recvSize, if_pos positive] at few
    have announced := (@getPackageLength_append protocol _ chunk long).trans announced
    simp only [recvWait, if_true]
    by_cases whole : buffer.offset ≤ (buffer.content ++ chunk).length
    · simp only [whole, if_true]
      refine @doDispatch_spec protocol ⟨buffer.content ++ chunk, buffer.size, buffer.offset, _, _⟩ _
        rfl announced positive within whole ?_ fun more => absurd more ?_
      · simp only
        omega
      · simp only [length_drop]
        omega
    · simp only [whole, if_false]
      refine ⟨rfl, fun error => (by cases error), fun _ => ⟨⟨rfl, room, .inr ⟨rfl, ?_, announced, ?_, size, within⟩⟩, ?_⟩⟩
      · simp only
        omega
      · simp only
        omega
      · exact .waiting (by omega) (by omega) (by omega)

theorem recvCheckLength_short (recvWait : buffer.recvWait = false)
    (short : (buffer.content ++ chunk).length <
      protocol.packageLengthOffset + protocol.packageLengthSize) :
    swProtocolRecvCheckLength protocol buffer chunk =
      ⟨{ buffer with
          content := buffer.content ++ chunk
          fault := buffer.fault || decide (buffer.size < (buffer.content ++ chunk).length) },
        [], .ok⟩ := by
  rw [swProtocolRecvCheckLength]
  simp only [recvWait, Bool.false_eq_true, if_false]
  rw [doGetLength]
  simp only [getPackageLength_short short, lt_irrefl, if_false, if_true]

theorem keeps_packages : Keeps (swProtocolRecvCheckLength protocol)
      (fun buffer chunk => Arrives protocol buffer chunk ∧ Fits protocol buffer chunk)
      (fun buffer stream packages =>
        Pending protocol buffer ∧ Packages protocol stream packages (.rest buffer.content))
      (fun buffer stream packages =>
        buffer.fault = false ∧ Packages protocol stream packages .closed) where
  keeps := fun ⟨pending, read⟩ ⟨arrives, fits⟩ noError => by
    obtain ⟨pending', read'⟩ := (recvCheckLength_spec pending arrives fits).kept noError
    exact ⟨pending', read.append read'⟩
  closes := fun ⟨pending, read⟩ ⟨arrives, fits⟩ error => by
    obtain ⟨fault, closed, -⟩ := recvCheckLength_spec pending arrives fits
    exact ⟨fault, read.append (closed error)⟩

/-! ## A fault remains -/

theorem doDispatch_fault {getLength : Buffer → Receipt Buffer (List UInt8)}
    (getLength_fault : ∀ {buffer : Buffer}, buffer.fault = true → (getLength buffer).state.fault = true)
    (fault : buffer.fault = true) : (doDispatch getLength buffer).state.fault = true := by
  rw [doDispatch]
  split
  · exact getLength_fault (by simp only [fault, Bool.true_or])
  · exact fault

theorem doGetLength_fault {fuel : Nat} (fault : buffer.fault = true) :
    (doGetLength protocol fuel buffer).state.fault = true := by
  induction fuel generalizing buffer with
  | zero => exact fault
  | succ fuel ih =>
    rw [doGetLength]
    split_ifs
    · exact fault
    · exact fault
    · exact fault
    · exact doDispatch_fault ih fault
    · exact fault

theorem recvCheckLength_fault
    (fault : buffer.fault = true ∨ buffer.size < (buffer.content ++ chunk).length) :
    (swProtocolRecvCheckLength protocol buffer chunk).state.fault = true := by
  have fault : (buffer.fault || decide (buffer.size < (buffer.content ++ chunk).length)) = true := by
    simpa only [Bool.or_eq_true, decide_eq_true_eq] using fault
  rw [swProtocolRecvCheckLength]
  split_ifs
  · exact doDispatch_fault doGetLength_fault fault
  · exact fault
  · exact doGetLength_fault fault

theorem feed_fault {chunks : List (List UInt8)} (fault : buffer.fault = true) :
    (feed (swProtocolRecvCheckLength protocol) chunks buffer).state.fault = true := by
  induction chunks generalizing buffer with
  | nil => exact fault
  | cons chunk chunks ih =>
    rw [feed]
    split_ifs
    · exact recvCheckLength_fault (.inl fault)
    · exact ih (recvCheckLength_fault (.inl fault))

theorem recvCheckLength_swap (pending : Pending protocol buffer)
    (arrives : Arrives protocol buffer chunk) (small : ¬ Swaps protocol (buffer.content ++ chunk)) :
    (swProtocolRecvCheckLength protocol buffer chunk).state.fault = true := by
  obtain ⟨fault, length, phase⟩ := pending
  have few := arrives.2
  simp only [Swaps, Classical.not_imp, Int.not_lt] at small
  obtain ⟨positive, within, whole, behind⟩ := small
  rcases phase with ⟨recvWait, offset, short⟩ | ⟨recvWait, long, announced, waiting, size, within⟩
  · obtain ⟨n, announced⟩ := Int.eq_ofNat_of_zero_le positive.le
    rw [announced] at positive within whole behind
    have negative : ¬ (n : Int) < 0 := by omega
    have nonzero : ¬ (n : Int) = 0 := by omega
    have large : ¬ (protocol.packageMaxLength : Int) < n := by omega
    have some : 0 < ((buffer.content ++ chunk).drop n).length := by
      rw [length_drop]
      omega
    have many : 8192 ≤ ((buffer.content ++ chunk).drop n).length := by
      rw [length_drop]
      omega
    rw [swProtocolRecvCheckLength]
    simp only [recvWait, Bool.false_eq_true, if_false]
    rw [doGetLength]
    simp only [announced, negative, nonzero, large, whole, if_false, if_true, Int.toNat_natCast]
    rw [doDispatch]
    simp only [some, if_true]
    exact doGetLength_fault (by simp only [many, decide_true, Bool.or_true])
  · have announced := (@getPackageLength_append protocol _ chunk long).trans announced
    rw [length_append] at behind
    rw [recvSize, if_pos (by omega)] at few
    omega

/-! ## The whole stream -/

/-- The calls hand over the packages of the stream and end the connection exactly at a
length that is negative or too large, and nothing is written outside an array. -/
structure Correct (protocol : Protocol) (chunks : List (List UInt8))
    (received : Received Buffer (List UInt8)) : Prop where
  bounded : received.state.fault = false
  kept : received.ok = true →
    Packages protocol chunks.flatten received.packages (.rest received.state.content)
  closed : received.ok = false →
    ∃ read, read <+: chunks ∧ Packages protocol read.flatten received.packages .closed

theorem fits_of_bounded {chunks : List (List UInt8)} (pending : Pending protocol buffer)
    (read : Packages protocol stream packages (.rest buffer.content))
    (arrives : Admits (swProtocolRecvCheckLength protocol) (Arrives protocol) chunks buffer)
    (bounded : (feed (swProtocolRecvCheckLength protocol) chunks buffer).state.fault = false)
    (flows : ¬ Stalls protocol (stream ++ chunks.flatten)) :
    Admits (swProtocolRecvCheckLength protocol) (Fits protocol) chunks buffer := by
  induction chunks generalizing buffer stream packages with
  | nil => trivial
  | cons chunk chunks ih =>
    obtain ⟨arrives, later⟩ := arrives
    rw [List.flatten_cons, ← List.append_assoc] at flows
    have noFault : (swProtocolRecvCheckLength protocol buffer chunk).state.fault = false := by
      refine Bool.eq_false_iff.mpr fun fault => absurd bounded ?_
      rw [feed]
      split_ifs
      · simp [fault]
      · simp [feed_fault fault]
    have fits : Fits protocol buffer chunk := by
      refine ⟨?_, ?_, fun stalls => flows (Stalls.append (Stalls.of_rest read stalls))⟩
      · by_contra full
        simp [recvCheckLength_fault (.inr (Nat.lt_of_not_le full))] at noFault
      · by_contra small
        simp [recvCheckLength_swap pending arrives small] at noFault
    refine ⟨fits, fun noError => ?_⟩
    obtain ⟨pending', read'⟩ := (recvCheckLength_spec pending arrives fits).kept noError
    rw [feed, if_neg noError] at bounded
    exact ih pending' (read.append read') (later noError) bounded flows

/-- **In whatever chunks a stream arrives, the calls hand over the packages that it
announces, if and only if the bytes fit at every receive and no package has the length
zero.** -/
theorem correct_iff_fits {size : Nat} {chunks : List (List UInt8)} {calls : Nat}
    (enough : chunks.length ≤ calls)
    (arrives : Admits (swProtocolRecvCheckLength protocol) (Arrives protocol) chunks
      ⟨[], size, 0, false, false⟩) : Correct protocol chunks
        (run (swProtocolRecvCheckLength protocol) calls chunks ⟨[], size, 0, false, false⟩) ↔
      Admits (swProtocolRecvCheckLength protocol) (Fits protocol) chunks
        ⟨[], size, 0, false, false⟩ := by
  have header := @packageLengthSize_pos protocol
  have short : ([] : List UInt8).length <
      protocol.packageLengthOffset + protocol.packageLengthSize := by
    rw [List.length_nil]
    omega
  have start : Pending protocol ⟨[], size, 0, false, false⟩ :=
    ⟨rfl, Nat.zero_le _, .inl ⟨rfl, rfl, short⟩⟩
  rw [run_eq_feed enough]
  constructor
  · rintro ⟨bounded, kept, closed⟩
    refine fits_of_bounded start (.short short) arrives bounded ?_
    cases ok : (feed (swProtocolRecvCheckLength protocol) chunks ⟨[], size, 0, false, false⟩).ok with
    | true => exact (kept ok).not_stalls
    | false =>
      obtain ⟨read, ⟨others, split⟩, ended⟩ := closed ok
      have whole := @Packages.append_closed _ _ others.flatten _ ended
      rw [← List.flatten_append, split] at whole
      exact whole.not_stalls
  · intro fits
    obtain ⟨kept, closed⟩ := feed_spec keeps_packages ⟨start, .short short⟩ (arrives.and fits)
    refine ⟨?_, fun ok => (kept ok).2, fun ended => ?_⟩
    · cases ok : (feed (swProtocolRecvCheckLength protocol) chunks ⟨[], size, 0, false, false⟩).ok with
      | true => exact (kept ok).1.fault
      | false => exact (closed ok).elim fun _ ended => ended.2.1
    · obtain ⟨read, front, -, ended⟩ := closed ended
      exact ⟨read, front, ended⟩

theorem correct_two : Correct ⟨.n, 0, 2, 64⟩ [[0], [1, 97], [0], [0]]
      (run (swProtocolRecvCheckLength ⟨.n, 0, 2, 64⟩) 4 [[0], [1, 97], [0], [0]]
        ⟨[], 8, 0, false, false⟩) := by
  have short {stream : List UInt8} (few : stream.length < 2) : Packages ⟨.n, 0, 2, 64⟩ stream [] (.rest stream) :=
    .short few
  have first : ¬ Stalls ⟨.n, 0, 2, 64⟩ [0] := (short (by decide)).not_stalls
  have second : ¬ Stalls ⟨.n, 0, 2, 64⟩ [0, 1, 97] :=
    (Packages.package (n := 3) (by decide) (by decide) (by decide) (by decide) (by decide)
      (short (by decide))).not_stalls
  have third : ¬ Stalls ⟨.n, 0, 2, 64⟩ [0, 0] :=
    (Packages.package (n := 2) (by decide) (by decide) (by decide) (by decide) (by decide)
      (short (by decide))).not_stalls
  refine (correct_iff_fits le_rfl ?_).mpr ?_
  · exact ⟨by decide, fun _ => ⟨by decide, fun _ => ⟨by decide, fun _ => ⟨by decide, fun _ => trivial⟩⟩⟩⟩
  · exact ⟨⟨by decide, by decide, first⟩, fun _ => ⟨⟨by decide, by decide, second⟩,
      fun _ => ⟨⟨by decide, by decide, first⟩, fun _ => ⟨⟨by decide, by decide, third⟩,
        fun _ => trivial⟩⟩⟩⟩

theorem not_correct_of_overrun {size : Nat} {first second : List UInt8}
    (short : first.length < protocol.packageLengthOffset + protocol.packageLengthSize)
    (overrun : size < (first ++ second).length) : ¬ Correct protocol [first, second]
      (run (swProtocolRecvCheckLength protocol) 2 [first, second] ⟨[], size, 0, false, false⟩) := by
  intro correct
  have bounded := correct.bounded
  rw [run_eq_feed (Nat.le_refl 2), feed,
    @recvCheckLength_short protocol ⟨[], size, 0, false, false⟩ first rfl short] at bounded
  simp only [reduceCtorEq, if_false] at bounded
  rw [feed] at bounded
  have fault := @recvCheckLength_fault protocol
    ⟨first, size, 0, false, false || decide (size < ([] ++ first).length)⟩ second (.inr overrun)
  split_ifs at bounded
  · exact Bool.false_ne_true (bounded.symm.trans fault)
  · exact Bool.false_ne_true (bounded.symm.trans fault)

/-- The length stands behind 5000 bytes: 5003 bytes are not enough, and the next receive
asks for 5004 more, where the buffer has 8192. -/
theorem not_correct_offset :
    ¬ Correct ⟨.N, 5000, 0, 65536⟩ [List.replicate 5003 0, List.replicate 5004 0]
      (run (swProtocolRecvCheckLength ⟨.N, 5000, 0, 65536⟩) 2
        [List.replicate 5003 0, List.replicate 5004 0] ⟨[], 8192, 0, false, false⟩) := by
  refine not_correct_of_overrun ?_ ?_
  · rw [List.length_replicate]
    decide
  · rw [length_append, List.length_replicate, List.length_replicate]
    decide

end PhpExts.Swoole.LengthProtocol
