import Mathlib

/-!
# The length of an MQTT package

`swMqtt_get_package_length` reads the remaining length behind the first byte: seven bits in each
byte, the lowest first, as long as the highest bit is set. The loop looks neither at the number of
bytes that were received nor at how many it has read. So the answer is right for a field of one to
four bytes that was received whole (`right_iff_whole`); of others it reads what is behind the received
bytes, or the multiplier leaves the range of an `int`.
-/

namespace PhpExts.Swoole.Mqtt

/-- What a call ends in: a read outside of the memory, or an `int` that overflows. -/
inductive Fault where
  | outside
  | overflow

/-- The value of an `int` expression. -/
def int (n : Int) : Except Fault Int :=
  if -0x80000000 ≤ n ∧ n < 0x80000000 then .ok n else .error .overflow

/-- The loop of `swMqtt_get_length`, over the memory from the next byte on. -/
def getLengthLoop (mul length : Int) (count : Nat) : List UInt8 → Except Fault (Int × Nat)
  | [] => .error .outside
  | byte :: data => do
    let term ← int ((byte &&& 127).toNat * mul)
    let length ← int (length + term)
    let mul ← int (mul * 128)
    if byte &&& 128 ≠ 0 then getLengthLoop mul length (count + 1) data
    else .ok (length, count + 1)

/-- `swMqtt_get_length`: the length and the count. Its `size` is not used. -/
def swMqttGetLength (data : List UInt8) : Except Fault (Int × Nat) :=
  getLengthLoop 1 0 0 data.tail

def minLength : Nat := 2

/-- `swMqtt_get_package_length`, with the memory that `data` points to. -/
def swMqttGetPackageLength (data : List UInt8) (size : Nat) : Except Fault Int :=
  if size < minLength then .ok 0
  else do
    let length ← swMqttGetLength data
    int (length.1 + length.2 + 1)

/-! ## The remaining length -/

/-- The field at the start of the bytes, where it is complete in them. -/
def field : List UInt8 → Option (List UInt8)
  | [] => none
  | byte :: data => if byte &&& 128 ≠ 0 then (field data).map (byte :: ·) else some [byte]

def value : List UInt8 → Nat
  | [] => 0
  | byte :: data => (byte &&& 127).toNat + 128 * value data

def Answers (received : List UInt8) (length : Int) : Prop :=
  match field received.tail with
  | none => length = 0
  | some bytes =>
    if bytes.length ≤ 4 then length = 1 + bytes.length + value bytes else length < 0

structure Right (received : List UInt8) : Prop where
  answers : ∀ behind : List UInt8, ∃ length,
    swMqttGetPackageLength (received ++ behind) received.length = .ok length
      ∧ Answers received length

theorem low_lt (byte : UInt8) : (byte &&& 127).toNat < 128 := by
  rw [UInt8.toNat_and]
  exact Nat.and_lt_two_pow byte.toNat (show (127 : UInt8).toNat < 2 ^ 7 by decide)

theorem int_of_range {n : Int} (lower : 0 ≤ n) (upper : n < 0x80000000) : int n = .ok n :=
  if_pos ⟨by omega, upper⟩

theorem lt_of_int {n m : Int} (h : int n = .ok m) : m = n ∧ n < 0x80000000 := by
  unfold int at h
  split at h
  next range => exact ⟨(Except.ok.inj h).symm, range.2⟩
  next => cases h

theorem field_pos : ∀ {data bytes : List UInt8}, field data = some bytes → 1 ≤ bytes.length
  | [], _, h => by cases h
  | byte :: data, bytes, h => by
    unfold field at h
    split at h
    · obtain ⟨rest, -, rfl⟩ := Option.map_eq_some_iff.mp h
      exact Nat.succ_pos _
    · cases h
      exact Nat.le_refl 1

theorem field_of_getLengthLoop : ∀ {data : List UInt8} {mul length : Int} {count : Nat}
    {result : Int × Nat}, getLengthLoop mul length count data = .ok result →
    ∃ bytes, field data = some bytes ∧ mul * 128 ^ bytes.length < 0x80000000
  | [], _, _, _, _, h => by cases h
  | byte :: data, mul, length, count, result, h => by
    unfold getLengthLoop at h
    cases hterm : int ((byte &&& 127).toNat * mul) with
    | error fault => rw [hterm] at h; cases h
    | ok term =>
      rw [hterm] at h
      cases hlength : int (length + term) with
      | error fault => simp [hlength, bind, Except.bind] at h
      | ok length' =>
        cases hmul : int (mul * 128) with
        | error fault => simp [hlength, hmul, bind, Except.bind] at h
        | ok mul' =>
          obtain ⟨rfl, range⟩ := lt_of_int hmul
          simp only [hlength, hmul, bind, Except.bind] at h
          by_cases more : byte &&& 128 ≠ 0
          · rw [if_pos more] at h
            obtain ⟨bytes, read, bound⟩ := field_of_getLengthLoop h
            refine ⟨byte :: bytes, ?_, ?_⟩
            · rw [field, if_pos more, read]
              rfl
            · rw [List.length_cons, pow_succ']
              rwa [mul_assoc] at bound
          · exact ⟨[byte], if_neg more, by simpa using range⟩

theorem getLengthLoop_cons {mul length : Int} (count : Nat) (byte : UInt8) (data : List UInt8)
    (positive : 0 ≤ mul) (nonneg : 0 ≤ length) (below : length < mul)
    (range : mul * 128 < 0x80000000) : getLengthLoop mul length count (byte :: data)
      = if byte &&& 128 ≠ 0 then
          getLengthLoop (mul * 128) (length + (byte &&& 127).toNat * mul) (count + 1) data
        else .ok (length + (byte &&& 127).toNat * mul, count + 1) := by
  have low := low_lt byte
  have term : ((byte &&& 127).toNat : Int) * mul ≤ 127 * mul :=
    mul_le_mul_of_nonneg_right (by omega) positive
  have term_nonneg : 0 ≤ ((byte &&& 127).toNat : Int) * mul :=
    mul_nonneg (Int.natCast_nonneg _) positive
  rw [getLengthLoop, int_of_range term_nonneg (by omega)]
  change (int _ >>= _) = _
  rw [int_of_range (by omega) (by omega)]
  change (int _ >>= _) = _
  rw [int_of_range (by omega) range]
  rfl

theorem getLengthLoop_of_field : ∀ {data bytes : List UInt8} {mul length : Int} (count : Nat)
    (behind : List UInt8), field data = some bytes → 0 ≤ length → length < mul →
    mul * 128 ^ bytes.length < 0x80000000 → getLengthLoop mul length count (data ++ behind)
      = .ok (length + mul * value bytes, count + bytes.length)
  | [], _, _, _, _, _, h, _, _, _ => by cases h
  | byte :: data, bytes, mul, length, count, behind, h, nonneg, below, range => by
    have low := low_lt byte
    have short : mul * 128 ≤ mul * 128 ^ bytes.length :=
      mul_le_mul_of_nonneg_left
        (le_self_pow₀ (by decide) (Nat.pos_iff_ne_zero.mp (field_pos h))) (by omega)
    rw [List.cons_append, getLengthLoop_cons count byte _ (by omega) nonneg below (by omega)]
    rw [field] at h
    by_cases more : byte &&& 128 ≠ 0
    · rw [if_pos more] at h ⊢
      obtain ⟨rest, read, rfl⟩ := Option.map_eq_some_iff.mp h
      have term : ((byte &&& 127).toNat : Int) * mul ≤ 127 * mul :=
        mul_le_mul_of_nonneg_right (by omega) (by omega)
      have term_nonneg : 0 ≤ ((byte &&& 127).toNat : Int) * mul :=
        mul_nonneg (Int.natCast_nonneg _) (by omega)
      rw [getLengthLoop_of_field (count + 1) behind read (by omega) (by omega)
        (by rwa [List.length_cons, pow_succ', ← mul_assoc] at range)]
      simp only [value, List.length_cons, Except.ok.injEq, Prod.mk.injEq]
      refine ⟨?_, by omega⟩
      push_cast
      ring
    · rw [if_neg more] at h ⊢
      cases h
      simp [value, mul_comm]

theorem value_lt : ∀ bytes : List UInt8, value bytes < 128 ^ bytes.length
  | [] => Nat.one_pos
  | byte :: data => by
    have := value_lt data
    have := low_lt byte
    rw [value, List.length_cons, pow_succ']
    omega

theorem field_of_right {received : List UInt8} (right : Right received)
    (two : minLength ≤ received.length) :
    ∃ bytes, field received.tail = some bytes ∧ bytes.length ≤ 4 := by
  obtain ⟨length, returns, -⟩ := right.answers []
  rw [swMqttGetPackageLength, if_neg (by omega), List.append_nil] at returns
  cases h : swMqttGetLength received with
  | error fault => rw [h] at returns; cases returns
  | ok result =>
    obtain ⟨bytes, read, range⟩ := field_of_getLengthLoop h
    refine ⟨bytes, read, ?_⟩
    by_contra long
    have : (128 : Int) ^ 5 ≤ 128 ^ bytes.length := pow_le_pow_right₀ (by decide) (by omega)
    omega

theorem ok_bind {α β : Type} (a : α) (f : α → Except Fault β) : (Except.ok a >>= f) = f a := rfl

theorem int_package {bytes : List UInt8} (four : bytes.length ≤ 4) :
    int (0 + 1 * (value bytes : Int) + ((0 + bytes.length : Nat) : Int) + 1)
      = .ok (1 + bytes.length + value bytes) := by
  have bound : value bytes < 0x10000000 :=
    (value_lt bytes).trans_le (Nat.pow_le_pow_right (by decide) four)
  rw [int_of_range (by omega) (by omega)]
  exact congrArg Except.ok (by omega)

theorem right_of_field {received bytes : List UInt8} (read : field received.tail = some bytes)
    (four : bytes.length ≤ 4) : Right received := by
  refine ⟨fun behind => ⟨1 + bytes.length + value bytes, ?_, ?_⟩⟩
  · have range : (1 : Int) * 128 ^ bytes.length < 0x80000000 := by
      have : (128 : Int) ^ bytes.length ≤ 128 ^ 4 := pow_le_pow_right₀ (by decide) four
      omega
    obtain ⟨first, data, rfl⟩ : ∃ first data, received = first :: data := by
      cases received with
      | nil => cases read
      | cons first data => exact ⟨first, data, rfl⟩
    have two : ¬ (first :: data).length < minLength := by
      cases data with
      | nil => cases read
      | cons => exact Nat.not_lt.mpr (Nat.le_add_left 2 _)
    rw [List.tail_cons] at read
    rw [swMqttGetPackageLength, if_neg two, swMqttGetLength,
      List.cons_append, List.tail_cons,
      getLengthLoop_of_field 0 behind read (le_refl 0) Int.one_pos range, ok_bind]
    exact int_package four
  · simp only [Answers, read, if_pos four]

/-- The call is right exactly where less than two bytes have been received, or the whole field in
at most four bytes. -/
theorem right_iff_whole (received : List UInt8) : Right received ↔ received.length < minLength
      ∨ ∃ bytes, field received.tail = some bytes ∧ bytes.length ≤ 4 := by
  constructor
  · intro right
    exact (Nat.lt_or_ge received.length minLength).imp id (field_of_right right)
  · rintro (short | ⟨bytes, read, four⟩)
    · refine ⟨fun behind => ⟨0, if_pos short, ?_⟩⟩
      match received, short with
      | [], _ => rfl
      | [_], _ => rfl
    · exact right_of_field read four

/-- The first length byte says that another follows, which has not been received. -/
theorem not_right_partial : ¬ ∀ received, Right received := by
  intro right
  obtain ⟨bytes, read, -⟩ := field_of_right (right [0x30, 0x80]) (by decide)
  cases read

end PhpExts.Swoole.Mqtt
