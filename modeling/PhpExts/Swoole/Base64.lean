import Mathlib.Data.List.Basic

/-!
# Base64

`swBase64_encode` carries the low bits of a byte over to the next character, in steps of three
bytes, and pads what is left; `swBase64_decode` puts the high bits of a byte into the output before
the next character has the rest, in steps of four, and looks at the end of the input where a
character may be the last before the padding. What is encoded is decoded to itself, with nothing
written behind it (`decode_encode`). Both return `BASE64_OK`, not a length.
-/

namespace PhpExts.Swoole.Base64

open Function (update update_self)

abbrev Bytes := List UInt8

/-- The table `base64en`. -/
def base64en : List Char :=
  ['A', 'B', 'C', 'D', 'E', 'F', 'G', 'H', 'I', 'J', 'K', 'L', 'M', 'N', 'O', 'P', 'Q', 'R', 'S',
    'T', 'U', 'V', 'W', 'X', 'Y', 'Z', 'a', 'b', 'c', 'd', 'e', 'f', 'g', 'h', 'i', 'j', 'k', 'l',
    'm', 'n', 'o', 'p', 'q', 'r', 's', 't', 'u', 'v', 'w', 'x', 'y', 'z', '0', '1', '2', '3', '4',
    '5', '6', '7', '8', '9', '+', '/']

/-- The table `base64de`, from the character `+` on. -/
def base64de : List Int :=
  [62, -1, -1, -1, 63, 52, 53, 54, 55, 56, 57, 58, 59, 60, 61, -1, -1, -1, -1, -1, -1, -1, 0, 1,
    2, 3, 4, 5, 6, 7, 8, 9, 10, 11, 12, 13, 14, 15, 16, 17, 18, 19, 20, 21, 22, 23, 24, 25,
    -1, -1, -1, -1, -1, -1, 26, 27, 28, 29, 30, 31, 32, 33, 34, 35, 36, 37, 38, 39, 40, 41, 42, 43,
    44, 45, 46, 47, 48, 49, 50, 51]

/-- `BASE64_PAD`. -/
def pad : UInt8 := 61

/-- `BASE64_OK` and `BASE64_INVALID`. -/
inductive Code where
  | ok
  | invalid

def Code.toNat : Code → Nat
  | ok => 0
  | invalid => 1

def en (n : Nat) : UInt8 := UInt8.ofNat (base64en.getD n 'A').toNat

/-- The entry of the table for a character, where it is within the table and not `-1`. -/
def de (c : UInt8) : Option Nat :=
  if c < 43 ∨ 122 < c then none
  else
    let entry := base64de.getD (c.toNat - 43) (-1)
    if entry = -1 then none else some entry.toNat

/-- The loop of `swBase64_encode`, from a byte on, and the padding behind it: the characters that
are put out. The byte before is `in[i - 1]`. -/
def encodeLoop : Nat → UInt8 → Bytes → Bytes
  | i, last, [] =>
    if i = 0 then []
    else if (i - 1) % 3 = 0 then [en ((last.toNat &&& 0x3) <<< 4), pad, pad]
    else if (i - 1) % 3 = 1 then [en ((last.toNat &&& 0xF) <<< 2), pad]
    else []
  | i, last, c :: rest =>
    (if i % 3 = 0 then [en ((c.toNat >>> 2) &&& 0x3F)]
      else if i % 3 = 1 then [en (((last.toNat &&& 0x3) <<< 4) + ((c.toNat >>> 4) &&& 0xF))]
      else [en (((last.toNat &&& 0xF) <<< 2) + ((c.toNat >>> 6) &&& 0x3)), en (c.toNat &&& 0x3F)])
      ++ encodeLoop (i + 1) c rest

/-- `swBase64_encode`. -/
def swBase64Encode (x : Bytes) : Bytes × Code := (encodeLoop 0 0 x, .ok)

abbrev Memory := Nat → UInt8

def put (out : Memory) (j n : Nat) : Memory := update out j (UInt8.ofNat n)

/-- The loop of `swBase64_decode` over the characters from one on. -/
def decodeLoop (input : Bytes) : Nat → Nat → Memory → Bytes → Code × Memory
  | _, _, out, [] => (.ok, out)
  | i, j, out, char :: rest =>
    if char = pad then (.ok, out)
    else
      match de char with
      | none => (.invalid, out)
      | some c =>
        if i % 4 = 0 then decodeLoop input (i + 1) j (put out j (c <<< 2)) rest
        else if i % 4 = 1 then
          let out := put out j ((out j).toNat + ((c >>> 4) &&& 0x3))
          let out := if i + 3 < input.length ∨ input.getD (input.length - 2) 0 ≠ pad then
            put out (j + 1) ((c &&& 0xF) <<< 4) else out
          decodeLoop input (i + 1) (j + 1) out rest
        else if i % 4 = 2 then
          let out := put out j ((out j).toNat + ((c >>> 2) &&& 0xF))
          let out := if i + 2 < input.length ∨ input.getD (input.length - 1) 0 ≠ pad then
            put out (j + 1) ((c &&& 0x3) <<< 6) else out
          decodeLoop input (i + 1) (j + 1) out rest
        else decodeLoop input (i + 1) (j + 1) (put out j ((out j).toNat + c)) rest

/-- `swBase64_decode`. -/
def swBase64Decode (input : Bytes) (out : Memory) : Code × Memory := decodeLoop input 0 0 out input

/-! ## Groups of three bytes -/

def group (a b c : UInt8) : Bytes :=
  [en (a.toNat / 4), en (a.toNat % 4 * 16 + b.toNat / 16),
    en (b.toNat % 16 * 4 + c.toNat / 64), en (c.toNat % 64)]

def groups : Bytes → Bytes
  | a :: b :: c :: rest => group a b c ++ groups rest
  | [a, b] => [en (a.toNat / 4), en (a.toNat % 4 * 16 + b.toNat / 16), en (b.toNat % 16 * 4), pad]
  | [a] => [en (a.toNat / 4), en (a.toNat % 4 * 16), pad, pad]
  | [] => []

theorem and_low (n : Nat) : n &&& 0x3 = n % 4 ∧ n &&& 0xF = n % 16 ∧ n &&& 0x3F = n % 64 :=
  ⟨Nat.and_two_pow_sub_one_eq_mod n 2, Nat.and_two_pow_sub_one_eq_mod n 4,
    Nat.and_two_pow_sub_one_eq_mod n 6⟩

theorem high_low (a b : UInt8) : a.toNat / 4 % 64 = a.toNat / 4 ∧ b.toNat / 16 % 16 = b.toNat / 16
    ∧ b.toNat / 64 % 4 = b.toNat / 64 := by
  have := a.toNat_lt
  have := b.toNat_lt
  omega

theorem encodeLoop_eq : ∀ (x : Bytes) (i : Nat) (last : UInt8), i % 3 = 0 →
    encodeLoop i last x = groups x
  | [], i, last, aligned => by
    rw [encodeLoop, groups]
    split_ifs <;> first | rfl | omega
  | [a], i, last, aligned => by
    simp only [encodeLoop, groups, aligned, if_true, Nat.add_sub_cancel, Nat.succ_ne_zero, if_false,
      and_low, Nat.shiftRight_eq_div_pow, Nat.shiftLeft_eq]
    rw [show a.toNat / 2 ^ 2 % 64 = a.toNat / 4 from (high_low a a).1]
    rfl
  | [a, b], i, last, aligned => by
    have one : (i + 1) % 3 = 1 := by omega
    simp only [encodeLoop, groups, aligned, one, if_true, Nat.add_sub_cancel, Nat.succ_ne_zero,
      if_false, and_low, Nat.shiftRight_eq_div_pow, Nat.shiftLeft_eq]
    rw [show a.toNat / 2 ^ 2 % 64 = a.toNat / 4 from (high_low a b).1,
      show b.toNat / 2 ^ 4 % 16 = b.toNat / 16 from (high_low a b).2.1]
    rfl
  | a :: b :: c :: rest, i, last, aligned => by
    have one : (i + 1) % 3 = 1 := by omega
    have two : (i + 1 + 1) % 3 = 2 := by omega
    rw [groups, ← encodeLoop_eq rest (i + 1 + 1 + 1) c (by omega)]
    simp only [encodeLoop, group, aligned, one, two, if_true, if_false, Nat.succ_ne_zero,
      Nat.succ_ne_self, and_low, Nat.shiftRight_eq_div_pow, Nat.shiftLeft_eq]
    rw [show a.toNat / 2 ^ 2 % 64 = a.toNat / 4 from (high_low a b).1,
      show b.toNat / 2 ^ 4 % 16 = b.toNat / 16 from (high_low a b).2.1,
      show c.toNat / 2 ^ 6 % 4 = c.toNat / 64 from (high_low b c).2.2]
    rfl

theorem length_groups : ∀ x : Bytes, (groups x).length = 4 * ((x.length + 2) / 3)
  | [] => rfl
  | [_] => by simp [groups]
  | [_, _] => by simp [groups]
  | _ :: _ :: _ :: rest => by
    rw [groups, List.length_append, length_groups rest]
    simp only [group, List.length_cons, List.length_nil]
    omega

theorem de_en : ∀ n < 64, de (en n) = some n ∧ en n ≠ pad := by decide

/-- Bytes that are put out one after the other. -/
def write : Nat → Bytes → Memory → Memory
  | _, [], out => out
  | j, b :: bytes, out => write (j + 1) bytes (update out j b)

theorem write_below : ∀ (bytes : Bytes) (j i : Nat) (out : Memory), i < j ∨ j + bytes.length ≤ i →
    write j bytes out i = out i
  | [], _, _, _, _ => rfl
  | b :: bytes, j, i, out, other => by
    rw [List.length_cons] at other
    rw [write, write_below bytes (j + 1) i _ (by omega), Function.update_of_ne (by omega)]

theorem write_get : ∀ (bytes : Bytes) (j i : Nat) (out : Memory) (h : i < bytes.length),
    write j bytes out (j + i) = bytes[i]
  | b :: bytes, j, 0, out, _ => by
    rw [write, write_below bytes (j + 1) (j + 0) _ (.inl (Nat.lt_succ_self j))]
    exact update_self _ _ _
  | b :: bytes, j, i + 1, out, h => by
    have step := write_get bytes (j + 1) i (update out j b) (Nat.lt_of_succ_lt_succ h)
    rwa [Nat.add_assoc, Nat.add_comm 1 i] at step

variable {input rest : Bytes} {i j n : Nat} {out : Memory} {a b c : UInt8}

theorem put_add {high low : Nat} (whole : high + low = a.toNat) :
    put (put out j high) j ((put out j high j).toNat + low) = update out j a := by
  have := a.toNat_lt
  have same : (UInt8.ofNat high).toNat = high := by
    rw [UInt8.toNat_ofNat']
    omega
  rw [put, put, update_self, same, whole, Function.update_idem, UInt8.ofNat_toNat]

theorem decodeLoop_en (small : n < 64) : decodeLoop input i j out (en n :: rest)
      = if i % 4 = 0 then decodeLoop input (i + 1) j (put out j (n <<< 2)) rest
        else if i % 4 = 1 then let out := put out j ((out j).toNat + ((n >>> 4) &&& 0x3))
          let out := if i + 3 < input.length ∨ input.getD (input.length - 2) 0 ≠ pad then
            put out (j + 1) ((n &&& 0xF) <<< 4) else out
          decodeLoop input (i + 1) (j + 1) out rest
        else if i % 4 = 2 then
          let out := put out j ((out j).toNat + ((n >>> 2) &&& 0xF))
          let out := if i + 2 < input.length ∨ input.getD (input.length - 1) 0 ≠ pad then
            put out (j + 1) ((n &&& 0x3) <<< 6) else out
          decodeLoop input (i + 1) (j + 1) out rest
        else decodeLoop input (i + 1) (j + 1) (put out j ((out j).toNat + n)) rest := by
  rw [decodeLoop, if_neg (de_en n small).2, (de_en n small).1]

theorem decodeLoop_first {high : Nat} (aligned : i % 4 = 0) (small : high < 16) :
    decodeLoop input i j out (en (a.toNat / 4) :: en (a.toNat % 4 * 16 + high) :: rest)
      = decodeLoop input (i + 2) (j + 1)
        (if i + 4 < input.length ∨ input.getD (input.length - 2) 0 ≠ pad then
          put (update out j a) (j + 1) (high * 16) else update out j a) rest := by
  have := a.toNat_lt
  have one : (i + 1) % 4 = 1 := by omega
  rw [decodeLoop_en (by omega), if_pos aligned, decodeLoop_en (by omega), if_neg (by omega),
    if_pos one]
  simp only [and_low, Nat.shiftRight_eq_div_pow, Nat.shiftLeft_eq]
  rw [put_add (show a.toNat / 4 * 2 ^ 2 + (a.toNat % 4 * 16 + high) / 2 ^ 4 % 4 = a.toNat by omega),
    show (a.toNat % 4 * 16 + high) % 16 * 2 ^ 4 = high * 16 by omega]

theorem decodeLoop_second {high : Nat} (aligned : i % 4 = 2) (small : high < 4) :
    decodeLoop input i j (put out j (b.toNat / 16 * 16)) (en (b.toNat % 16 * 4 + high) :: rest)
      = decodeLoop input (i + 1) (j + 1)
        (if i + 2 < input.length ∨ input.getD (input.length - 1) 0 ≠ pad then
          put (update out j b) (j + 1) (high * 64) else update out j b) rest := by
  rw [decodeLoop_en (by omega), if_neg (by omega), if_neg (by omega), if_pos aligned]
  simp only [and_low, Nat.shiftRight_eq_div_pow, Nat.shiftLeft_eq]
  rw [put_add (show b.toNat / 16 * 16 + (b.toNat % 16 * 4 + high) / 2 ^ 2 % 16 = b.toNat by omega),
    show (b.toNat % 16 * 4 + high) % 4 * 2 ^ 6 = high * 64 by omega]

theorem decodeLoop_third (aligned : i % 4 = 3) :
    decodeLoop input i j (put out j (c.toNat / 64 * 64)) (en (c.toNat % 64) :: rest)
      = decodeLoop input (i + 1) (j + 1) (update out j c) rest := by
  rw [decodeLoop_en (by omega), if_neg (by omega), if_neg (by omega), if_neg (by omega),
    put_add (show c.toNat / 64 * 64 + c.toNat % 64 = c.toNat by omega)]

theorem decodeLoop_pad : decodeLoop input i j out (pad :: rest) = (.ok, out) := if_pos rfl

theorem not_last {pre tail : Bytes} {w x y z : UInt8} :
    (y ≠ pad → pre.length + 4 < (pre ++ w :: x :: y :: z :: tail).length
      ∨ (pre ++ w :: x :: y :: z :: tail).getD ((pre ++ w :: x :: y :: z :: tail).length - 2) 0
        ≠ pad) ∧ (z ≠ pad → pre.length + 4 < (pre ++ w :: x :: y :: z :: tail).length
      ∨ (pre ++ w :: x :: y :: z :: tail).getD ((pre ++ w :: x :: y :: z :: tail).length - 1) 0
        ≠ pad) := by
  cases tail with
  | nil => exact ⟨fun other => .inr (by simpa using other), fun other => .inr (by simpa using other)⟩
  | cons => exact ⟨fun _ => .inl (by simp), fun _ => .inl (by simp)⟩

theorem decodeLoop_groups : ∀ (x pre : Bytes) (j : Nat) (out : Memory), pre.length % 4 = 0 →
    decodeLoop (pre ++ groups x) pre.length j out (groups x) = (.ok, write j x out)
  | [], _, _, _, _ => rfl
  | [a], pre, j, out, aligned => by
    rw [groups]
    change decodeLoop _ _ _ _ (en _ :: en (a.toNat % 4 * 16 + 0) :: [pad, pad]) = _
    rw [decodeLoop_first aligned (by decide), if_neg (by simp), decodeLoop_pad]
    rfl
  | [a, b], pre, j, out, aligned => by
    have bound := b.toNat_lt
    rw [groups, decodeLoop_first aligned (by omega), if_pos (not_last.1 (de_en _ (by omega)).2)]
    change decodeLoop _ _ _ _ (en (b.toNat % 16 * 4 + 0) :: [pad]) = _
    rw [decodeLoop_second (by omega) (by decide), if_neg (by simp), decodeLoop_pad]
    rfl
  | a :: b :: c :: rest, pre, j, out, aligned => by
    have bound := b.toNat_lt
    have bound' := c.toNat_lt
    have all := decodeLoop_groups rest (pre ++ group a b c) (j + 3)
      (update (update (update out j a) (j + 1) b) (j + 2) c)
      (by rw [List.length_append]; exact (Nat.add_mod_right _ 4).trans aligned)
    rw [List.append_assoc, List.length_append] at all
    rw [groups]
    simp only [group, List.cons_append, List.nil_append] at all ⊢
    rw [decodeLoop_first aligned (by omega), if_pos (not_last.1 (de_en _ (by omega)).2),
      decodeLoop_second (by omega) (by omega), if_pos (not_last.2 (de_en _ (by omega)).2),
      decodeLoop_third (by omega)]
    exact all

/-- What is encoded is decoded to itself, and nothing is written behind it. -/
theorem decode_encode (x : Bytes) :
    (swBase64Encode x).2 = .ok ∧ (swBase64Encode x).1.length = 4 * ((x.length + 2) / 3)
      ∧ ∀ out : Memory, ∃ out', swBase64Decode (swBase64Encode x).1 out = (.ok, out')
        ∧ (∀ (i : Nat) (h : i < x.length), out' i = x[i]) ∧ ∀ i, x.length ≤ i → out' i = out i := by
  have encoded : (swBase64Encode x).1 = groups x := encodeLoop_eq x 0 0 rfl
  rw [encoded]
  refine ⟨rfl, length_groups x, fun out => ⟨write 0 x out, ?_, fun i h => ?_, fun i behind => ?_⟩⟩
  · exact decodeLoop_groups x [] 0 out rfl
  · simpa using write_get x 0 i out h
  · exact write_below x 0 i out (.inr (by omega))

/-- The code that is returned is not the length. -/
theorem not_decode_length : ¬ ∀ (x : Bytes) (out : Memory),
      (swBase64Decode (swBase64Encode x).1 out).1.toNat = x.length := by
  intro same
  have code := same [0x61] fun _ => 0
  have decoded := decodeLoop_groups [0x61] [] 0 (fun _ => 0) rfl
  rw [swBase64Encode, encodeLoop_eq _ 0 0 rfl] at code
  rw [show swBase64Decode (groups [0x61]) (fun _ => 0) = _ from decoded] at code
  cases code

end PhpExts.Swoole.Base64
