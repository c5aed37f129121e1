import Mathlib.Data.List.TakeWhile
import PhpExts.Redis.ClusterCommand

/-!
# The line of a redirection

An error line that begins with `MOVED ` or `ASK ` announces a slot and a node. The client cuts it at
its first blank and its last colon, takes the numbers with `atoi` as `unsigned short`, and copies at
most 254 bytes of the host, while it notes the length of all of it.

What it records is what the line announces exactly if the slot is below 16384, the port below 65536
and the host not too long; otherwise only lines that cannot be cut are told apart. Lines with `ASK `
are not recognised at all, since the test looks for the `K` in the place of the blank
(`redirection_iff`).
-/

namespace PhpExts.Redis.RedirectionLine

open PhpExts.Redis.Slots PhpExts.Redis.Command
open PhpExts.Swoole.RedisProtocol (isDigit crlf Denotes strtol_digits)
open PhpExts.Swoole.LengthProtocol (asInt)

/-- A line, as the C string that `cluster_check_response` has read. -/
def line (moved : Bool) (text : List UInt8) : List UInt8 :=
  (if moved then [77, 79, 86, 69, 68, 32] else [65, 83, 75, 32]) ++ text

/-- The text `slot host:port`, at the end of a line or in front of it. -/
structure Announces (text : List UInt8) (slot : Nat) (host : List UInt8) (port : Nat) : Prop where
  shape : ∃ slotText portText tail, text = slotText ++ 32 :: (host ++ 58 :: (portText ++ tail)) ∧
    Denotes slotText slot ∧ Denotes portText port ∧ (tail = [] ∨ tail = crlf)

structure Recorded (c : RedisCluster) (moved : Bool) (text : List UInt8) : Prop where
  fields : ∃ slot host port, Announces text slot host port ∧ slot < 16384 ∧ c.redirSlot = slot ∧
    c.redirHost = host ∧ c.redirPort = port
  length : c.redirHostLen = c.redirHost.length
  type : c.redirType = if moved then .moved else .ask

def Sendable (text : List UInt8) : Prop :=
  ∃ slot host port, Announces text slot host port ∧ slot < 16384 ∧ port < 65536 ∧ host ≠ [] ∧
    host.length ≤ 254 ∧ ∀ byte ∈ host, byte ≠ 0 ∧ byte ≠ 10 ∧ byte ≠ 13 ∧ byte ≠ 32

structure Right (c : RedisCluster) (moved : Bool) (text : List UInt8) : Prop where
  allOrNothing : ∀ next, clusterSetRedirection c (line moved text) moved = some next →
    Recorded next moved text
  recognised : Sendable text → (isMoved (line moved text) ∨ isAsk (line moved text)) ∧
    (clusterSetRedirection c (line moved text) (isMoved (line moved text))).isSome

def Uncut (text : List UInt8) : Prop :=
  ∀ before rest, text = before ++ 32 :: rest → 32 ∉ before → 58 ∉ rest

def Clear (text : List UInt8) : Prop :=
  Uncut text ∨ ∃ slot host port, Announces text slot host port ∧ slot < 16384 ∧ port < 65536 ∧
    host.length ≤ 254

section

variable {c : RedisCluster} {moved : Bool} {text host : List UInt8} {slot port : Nat}

theorem strchr_cases (string : List UInt8) (byte : UInt8) :
    (byte ∉ string ∧ strchr string byte = none) ∨
      ∃ before behind, string = before ++ byte :: behind ∧ byte ∉ before := by
  by_cases there : byte ∈ string
  · exact .inr (List.eq_append_cons_of_mem there)
  · refine .inl ⟨there, ?_⟩
    have all : string.dropWhile (· != byte) = [] := by
      rw [List.dropWhile_eq_nil_iff]
      intro other mem
      rw [bne_iff_ne]
      rintro rfl
      exact there mem
    rw [strchr, all]

theorem strrchr_cases (string : List UInt8) (byte : UInt8) :
    (byte ∉ string ∧ strrchr string byte = none) ∨
      ∃ before behind, string = before ++ byte :: behind ∧ byte ∉ behind := by
  by_cases there : byte ∈ string
  · obtain ⟨behind, before, shape, new⟩ := List.eq_append_cons_of_mem (List.mem_reverse.mpr there)
    refine .inr ⟨before.reverse, behind.reverse, ?_, fun mem => new (List.mem_reverse.mp mem)⟩
    have whole := congrArg List.reverse shape
    rw [List.reverse_reverse, List.reverse_append, List.reverse_cons, List.append_assoc,
      List.singleton_append] at whole
    exact whole
  · refine .inl ⟨there, ?_⟩
    have all : string.reverse.dropWhile (· != byte) = [] := by
      rw [List.dropWhile_eq_nil_iff]
      intro other mem
      rw [bne_iff_ne]
      rintro rfl
      exact there (List.mem_reverse.mp mem)
    rw [strrchr, all]

/-- What is recorded from the three parts of a text. -/
def record (c : RedisCluster) (moved : Bool) (slotText host portText : List UInt8) : RedisCluster :=
  { c with
    redirType := if moved then .moved else .ask
    redirHost := host.take 254
    redirHostLen := host.length
    redirSlot := unsignedShort (atoi slotText)
    redirPort := unsignedShort (atoi portText) }

theorem drop_line : (line moved text).drop (if moved then 6 else 4) = text := by
  cases moved <;> rfl

theorem clusterSetRedirection_cut {slotText portText : List UInt8} (first : 32 ∉ slotText)
    (last : 58 ∉ portText) :
    clusterSetRedirection c (line moved (slotText ++ 32 :: (host ++ 58 :: portText))) moved =
      some (record c moved slotText host portText) := by
  rw [clusterSetRedirection, drop_line, strchr_append first]
  simp only [strrchr_append last]
  rfl

theorem cut_cases (c : RedisCluster) (moved : Bool) (text : List UInt8) :
    (Uncut text ∧ clusterSetRedirection c (line moved text) moved = none) ∨
      ∃ slotText host portText, text = slotText ++ 32 :: (host ++ 58 :: portText) ∧
        32 ∉ slotText ∧ 58 ∉ portText := by
  rcases strchr_cases text 32 with ⟨blank, missing⟩ | ⟨slotText, rest, rfl, first⟩
  · left
    constructor
    · rintro before rest rfl
      exact absurd (List.mem_append_right _ (.head _)) blank
    · rw [clusterSetRedirection, drop_line, missing]
  · rcases strrchr_cases rest 58 with ⟨colon, missing⟩ | ⟨host, portText, rfl, last⟩
    · left
      constructor
      · intro before others shape first'
        have same := @strchr_append _ others _ first'
        rw [← shape, strchr_append first] at same
        cases same
        exact colon
      · rw [clusterSetRedirection, drop_line, strchr_append first]
        simp only [missing]
    · exact .inr ⟨slotText, host, portText, rfl, first, last⟩

theorem denotes_avoids {digits : List UInt8} {number : Nat} {byte : UInt8}
    (denotes : Denotes digits number) (other : byte.toNat < 48 ∨ 57 < byte.toNat) :
    byte ∉ digits := by
  intro mem
  have := isDigit_toNat (denotes.each byte mem)
  omega

theorem tail_stops {tail : List UInt8} (ending : tail = [] ∨ tail = crlf) :
    58 ∉ tail ∧ tail.takeWhile isDigit = [] := by
  rcases ending with rfl | rfl <;> decide

theorem unsignedShort_atoi {digits tail : List UInt8} {number : Nat}
    (denotes : Denotes digits number) (small : number < 2 ^ 16)
    (stops : tail.takeWhile isDigit = []) : unsignedShort (atoi (digits ++ tail)) = number := by
  rw [atoi, strtol_digits denotes (by omega) stops, asInt, unsignedShort]
  omega

theorem announced_eq (announces : Announces text slot host port) (slot_lt : slot < 16384)
    (port_lt : port < 65536) (fits : host.length ≤ 254) :
    clusterSetRedirection c (line moved text) moved = some { c with
      redirType := if moved then .moved else .ask
      redirHost := host
      redirHostLen := host.length
      redirSlot := slot
      redirPort := port } := by
  obtain ⟨slotText, portText, tail, rfl, slotDenotes, portDenotes, ending⟩ := announces.shape
  obtain ⟨noColon, stops⟩ := tail_stops ending
  have first : 32 ∉ slotText := denotes_avoids slotDenotes (by decide)
  have last : 58 ∉ portText ++ tail := by
    rw [List.mem_append, not_or]
    exact ⟨denotes_avoids portDenotes (by decide), noColon⟩
  have slotValue := @unsignedShort_atoi _ [] _ slotDenotes (by omega) rfl
  rw [List.append_nil] at slotValue
  rw [clusterSetRedirection_cut first last, record, slotValue,
    unsignedShort_atoi portDenotes (by omega) stops, List.take_of_length_le fits]

theorem unsignedShort_lt (n : Int) : unsignedShort n < 65536 := by
  rw [unsignedShort]
  omega

end

/-! ## What is recorded -/

variable {c : RedisCluster} {moved : Bool} {text : List UInt8}

theorem allOrNothing_iff : (∀ next, clusterSetRedirection c (line moved text) moved = some next →
      Recorded next moved text) ↔ Clear text := by
  constructor
  · intro allOrNothing
    rcases cut_cases c moved text with ⟨uncut, -⟩ | ⟨slotText, host, portText, rfl, first, last⟩
    · exact .inl uncut
    · right
      obtain ⟨⟨slot, announced, port, announces, slot_lt, -, sameHost, samePort⟩, length, -⟩ :=
        allOrNothing _ (clusterSetRedirection_cut first last)
      refine ⟨slot, announced, port, announces, slot_lt, ?_, ?_⟩
      · rw [← samePort]
        exact unsignedShort_lt _
      · rw [← sameHost]
        exact List.length_take_le _ _
  · rintro (uncut | ⟨slot, host, port, announces, slot_lt, port_lt, fits⟩) next set
    · rcases cut_cases c moved text with ⟨-, missing⟩ | ⟨slotText, host, portText, rfl, first, last⟩
      · rw [missing] at set
        cases set
      · exact absurd (List.mem_append_right _ (.head _)) (uncut _ _ rfl first)
    · rw [announced_eq announces slot_lt port_lt fits] at set
      cases set
      exact ⟨⟨slot, host, port, announces, slot_lt, rfl, rfl, rfl⟩, rfl, rfl⟩

theorem isMoved_line : isMoved (line moved text) = moved := by
  cases moved <;> rfl

theorem isAsk_line : isAsk (line false text) = false := rfl

/-- Redirections are all or nothing, and those of nodes recognised, exactly if the text cannot be cut
or announces what can be recorded, and the line is a `MOVED` or none that a node sends. -/
theorem redirection_iff (c : RedisCluster) (moved : Bool) (text : List UInt8) :
    Right c moved text ↔ Clear text ∧ (moved = true ∨ ¬Sendable text) := by
  constructor
  · rintro ⟨allOrNothing, recognised⟩
    refine ⟨allOrNothing_iff.mp allOrNothing, ?_⟩
    cases moved with
    | true => exact .inl rfl
    | false =>
      right
      intro sendable
      rcases (recognised sendable).1 with isMoved | isAsk
      · rw [isMoved_line] at isMoved
        cases isMoved
      · rw [isAsk_line] at isAsk
        cases isAsk
  · rintro ⟨clear, known⟩
    refine ⟨allOrNothing_iff.mpr clear, fun sendable => ?_⟩
    have isMoved_ : moved = true := known.resolve_right fun none_ => none_ sendable
    obtain ⟨slot, host, port, announces, slot_lt, port_lt, -, fits, -⟩ := sendable
    rw [isMoved_line, announced_eq announces slot_lt port_lt fits]
    exact ⟨.inl isMoved_, rfl⟩

/-- `ASK 3999 127.0.0.1:6381`. -/
theorem not_redirection : ¬∀ c moved text, Right c moved text := by
  intro right
  have sendable : Sendable [51, 57, 57, 57, 32, 49, 50, 55, 46, 48, 46, 48, 46, 49, 58, 54, 51, 56, 49,
      13, 10] := by
    refine ⟨3999, [49, 50, 55, 46, 48, 46, 48, 46, 49], 6381, ⟨?_⟩, by decide, by decide, by decide,
      by decide, by simp⟩
    exact ⟨[51, 57, 57, 57], [54, 51, 56, 49], [13, 10], rfl, ⟨by decide, by simp [isDigit], rfl⟩,
      ⟨by decide, by simp [isDigit], rfl⟩, .inr rfl⟩
  rcases ((right .empty false _).recognised sendable).1 with isMoved | isAsk
  · cases isMoved
  · cases isAsk

end PhpExts.Redis.RedirectionLine
