import Mathlib

/-!
# Numbers as big-endian bytes

`bigEndian k n` is the number `n` written most significant byte first in `k`
bytes, the bits beyond them dropped; `ofBigEndian` reads such bytes back.
-/

namespace PhpExts.Library

/-- The low `k` bytes of `n`, most significant first. -/
def bigEndian : Nat → Nat → List UInt8
  | 0, _ => []
  | k + 1, n => UInt8.ofNat (n / 256 ^ k) :: bigEndian k n

/-- The number whose big-endian bytes are given. -/
def ofBigEndian (bytes : List UInt8) : Nat :=
  bytes.foldl (fun n byte => n * 256 + byte.toNat) 0

@[simp] theorem length_bigEndian (k n : Nat) : (bigEndian k n).length = k := by
  induction k with
  | zero => rfl
  | succ k ih => simp [bigEndian, ih]

theorem foldl_bigEndian (k n start : Nat) :
    (bigEndian k n).foldl (fun n byte => n * 256 + byte.toNat) start =
      start * 256 ^ k + n % 256 ^ k := by
  induction k generalizing start with
  | zero => simp [bigEndian, Nat.mod_one]
  | succ k ih =>
    have digit : n % 256 ^ (k + 1) = n / 256 ^ k % 256 * 256 ^ k + n % 256 ^ k := by
      rw [pow_succ, Nat.mod_mul, Nat.add_comm, Nat.mul_comm]
    rw [bigEndian, List.foldl_cons, ih, UInt8.toNat_ofNat', digit]
    ring

theorem ofBigEndian_bigEndian (k n : Nat) : ofBigEndian (bigEndian k n) = n % 256 ^ k := by
  rw [ofBigEndian, foldl_bigEndian]
  simp

theorem ofBigEndian_bigEndian_of_lt {k n : Nat} (fits : n < 256 ^ k) :
    ofBigEndian (bigEndian k n) = n := by
  rw [ofBigEndian_bigEndian, Nat.mod_eq_of_lt fits]

theorem foldl_ofBigEndian_lt (bytes : List UInt8) (start : Nat) :
    bytes.foldl (fun n byte => n * 256 + byte.toNat) start < (start + 1) * 256 ^ bytes.length := by
  induction bytes generalizing start with
  | nil => simp
  | cons byte bytes ih =>
    have bounded : start * 256 + byte.toNat + 1 ≤ (start + 1) * 256 := by
      have := byte.toNat_lt
      omega
    calc bytes.foldl (fun n byte => n * 256 + byte.toNat) (start * 256 + byte.toNat)
        < (start * 256 + byte.toNat + 1) * 256 ^ bytes.length := ih _
      _ ≤ (start + 1) * 256 * 256 ^ bytes.length := Nat.mul_le_mul_right _ bounded
      _ = (start + 1) * 256 ^ (byte :: bytes).length := by
          rw [List.length_cons, pow_succ]
          ring

theorem ofBigEndian_lt (bytes : List UInt8) : ofBigEndian bytes < 256 ^ bytes.length := by
  simpa [ofBigEndian] using foldl_ofBigEndian_lt bytes 0

end PhpExts.Library
