import PhpExts.Msgpack.Serialize
import PhpExts.Msgpack.Unserialize
import Mathlib

/-!
# What the pack functions write

Every `msgpack_pack_*` writes the encoding of one object, or the header of one,
in the narrowest width; the decoder's callbacks make the same value of it.
-/

namespace PhpExts.Msgpack

open PhpExts.Zend PhpExts.Library

/-- The encoding `msgpack_pack_long` chooses. -/
def Scalar.ofLong (d : Int) : Scalar :=
  if d < -2 ^ 5 then
    if d < -2 ^ 15 then
      if d < -2 ^ 31 then .number .int64 (lowBits 64 d) else .number .int32 (lowBits 32 d)
    else if d < -2 ^ 7 then .number .int16 (lowBits 16 d)
    else .number .int8 (lowBits 8 d)
  else if d < 0 then .negFixnum (d + 32).toNat
  else if d < 2 ^ 7 then .fixnum d.toNat
  else if d < 2 ^ 16 then
    if d < 2 ^ 8 then .number .uint8 (lowBits 8 d) else .number .uint16 (lowBits 16 d)
  else if d < 2 ^ 32 then .number .uint32 (lowBits 32 d)
  else .number .uint64 (lowBits 64 d)

variable {d : Int}

theorem lowBits_of_nonneg {k : Nat} (nonneg : 0 ≤ d) (small : d < 2 ^ k) :
    lowBits k d = d.toNat := by
  rw [lowBits, Int.emod_eq_of_lt nonneg small]

theorem lowBits_of_neg {k : Nat} (neg : d < 0) (large : -2 ^ k ≤ d) :
    lowBits k d = (d + 2 ^ k).toNat := by
  rw [lowBits, ← Int.add_emod_right, Int.emod_eq_of_lt (by omega) (by omega)]

/-- The range of a `long`. -/
def InLong (d : Int) : Prop := -2 ^ 63 ≤ d ∧ d < 2 ^ 63

theorem toLong_eq_of_inLong (range : InLong d) : WordSize.eight.toLong d = d := by
  obtain ⟨low, high⟩ := range
  exact WordSize.toLong_eq (by change -(256 ^ 8 / 2 : Int) ≤ d; omega)
    (by change d ≤ (256 ^ 8 / 2 : Int) - 1; omega)

theorem lowBits_lt {k : Nat} : lowBits k d < 2 ^ k := by
  have pos : (0 : Int) < 2 ^ k := pow_pos (by decide) k
  have less := Int.emod_lt_of_pos d pos
  have nonneg := Int.emod_nonneg d (Int.ne_of_gt pos)
  rw [lowBits]
  zify
  rwa [Int.toNat_of_nonneg nonneg]

theorem toSigned_lowBits {k : Nat} (neg : d < 0) (large : -2 ^ (k - 1) ≤ d)
    (pos : 0 < k) : toSigned k (lowBits k d) = d := by
  have double : (2 : Int) ^ k = 2 * 2 ^ (k - 1) := by
    rw [← pow_succ', Nat.sub_add_cancel pos]
  have half : (0 : Int) < 2 ^ (k - 1) := pow_pos (by decide) _
  rw [lowBits_of_neg neg (by omega), toSigned]
  have cast : ((d + 2 ^ k).toNat : Int) = d + 2 ^ k := Int.toNat_of_nonneg (by omega)
  have high : ¬ (d + 2 ^ k).toNat < 2 ^ (k - 1) := by
    intro less
    have : ((d + 2 ^ k).toNat : Int) < 2 ^ (k - 1) := by exact_mod_cast less
    omega
  rw [if_neg high, cast]
  omega

/-- `msgpack_pack_long` writes one object, which is read as the number. -/
structure PacksLong (d : Int) (bytes : Bytes) (x : Scalar) : Prop where
  bytes : bytes = x.bytes
  fits : x.Fits
  value : x.value.toZValue = .long d

theorem packsLong_number {t : NumberType} {k : Nat} (width : 256 ^ t.width = 2 ^ k)
    (value : (t.value (lowBits k d)).toZValue = .long d) :
    PacksLong d (t.header :: bigEndian t.width (lowBits k d)) (.number t (lowBits k d)) where
  bytes := rfl
  fits := by rw [Scalar.Fits, width]; exact lowBits_lt
  value := value

theorem toLong_lowBits {k : Nat} (range : InLong d) (nonneg : 0 ≤ d)
    (small : d < 2 ^ k) : WordSize.eight.toLong (lowBits k d) = d := by
  rw [lowBits_of_nonneg nonneg small, Int.toNat_of_nonneg nonneg]
  exact toLong_eq_of_inLong range

theorem packLong_eq (range : InLong d) : PacksLong d (packLong d) (Scalar.ofLong d) := by
  have signed {k : Nat} (neg : d < 0) (large : -2 ^ (k - 1) ≤ d) (pos : 0 < k) :
      ZValue.long (toSigned k (lowBits k d)) = .long d := by
    rw [toSigned_lowBits neg large pos]
  have unsigned {k : Nat} (nonneg : 0 ≤ d) (small : d < 2 ^ k) :
      ZValue.long (WordSize.eight.toLong (lowBits k d)) = .long d := by
    rw [toLong_lowBits range nonneg small]
  unfold packLong Scalar.ofLong
  split
  · split
    · split
      · exact packsLong_number (t := .int64) (by decide) (signed (by omega) range.1 (by decide))
      · exact packsLong_number (t := .int32) (by decide) (signed (by omega) (by omega) (by decide))
    · split
      · exact packsLong_number (t := .int16) (by decide) (signed (by omega) (by omega) (by decide))
      · exact packsLong_number (t := .int8) (by decide) (signed (by omega) (by omega) (by decide))
  · by_cases neg : d < 0
    · rw [if_pos (by omega), if_pos neg]
      have low : lowBits 8 d = 0xe0 + (d + 32).toNat := by
        rw [lowBits_of_neg neg (by omega)]
        omega
      refine ⟨by rw [low]; rfl, show (d + 32).toNat < 32 by omega, ?_⟩
      change ZValue.long (((d + 32).toNat : Int) - 32) = .long d
      rw [Int.toNat_of_nonneg (by omega), Int.add_sub_cancel]
    · rw [if_neg neg]
      split
      · rw [lowBits_of_nonneg (by omega) (by omega)]
        refine ⟨rfl, show d.toNat < 128 by omega, ?_⟩
        change ZValue.long (WordSize.eight.toLong d.toNat) = .long d
        rw [Int.toNat_of_nonneg (by omega), toLong_eq_of_inLong range]
      · split
        · split
          · exact packsLong_number (t := .uint8) (by decide) (unsigned (by omega) (by omega))
          · exact packsLong_number (t := .uint16) (by decide) (unsigned (by omega) (by omega))
        · split
          · exact packsLong_number (t := .uint32) (by decide) (unsigned (by omega) (by omega))
          · exact packsLong_number (t := .uint64) (by decide)
              (unsigned (by omega) (by have := range.2; omega))

/-! ## Counts and lengths -/

/-- The width `msgpack_pack_array` and `msgpack_pack_map` choose. -/
def CountWidth.ofCount (n : Nat) : CountWidth :=
  if n < 16 then .fix else if n < 65536 then .w16 else .w32

/-- The width `msgpack_pack_raw` chooses. -/
def RawWidth.ofLength (useStr8Serialization : Bool) (l : Nat) : RawWidth :=
  if l < 32 then .fix
  else if l < 256 ∧ useStr8Serialization then .w8
  else if l < 65536 then .w16
  else .w32

theorem CountWidth.lt_limit_ofCount {n : Nat} (small : n < 2 ^ 32) :
    n < (CountWidth.ofCount n).limit := by
  unfold CountWidth.ofCount
  split
  · assumption
  · split
    · assumption
    · exact small

variable {useStr8Serialization : Bool}

theorem RawWidth.lt_limit_ofLength {l : Nat} (small : l < 2 ^ 32) :
    l < (RawWidth.ofLength useStr8Serialization l).limit := by
  unfold RawWidth.ofLength
  split
  · assumption
  · split
    · rename_i short
      exact short.1
    · split
      · assumption
      · exact small

theorem packArray_eq {n : Nat} (small : n < 2 ^ 32) :
    packArray n = (CountWidth.ofCount n).arrayHeader n := by
  simp only [packArray, CountWidth.ofCount, Nat.mod_eq_of_lt small]
  split
  · rfl
  · split <;> rfl

theorem packMap_eq {n : Nat} (small : n < 2 ^ 32) :
    packMap n = (CountWidth.ofCount n).mapHeader n := by
  simp only [packMap, CountWidth.ofCount, Nat.mod_eq_of_lt small]
  split
  · rfl
  · split <;> rfl

theorem packRaw_eq {l : Nat} (small : l < 2 ^ 32) :
    packRaw useStr8Serialization l = (RawWidth.ofLength useStr8Serialization l).header l := by
  simp only [packRaw, RawWidth.ofLength, Nat.mod_eq_of_lt small]
  split
  · rfl
  · split
    · rfl
    · split <;> rfl

/-- The encoding `msgpack_serialize_string` chooses. -/
def Scalar.ofString (useStr8Serialization : Bool) (str : Bytes) : Scalar :=
  .raw (RawWidth.ofLength useStr8Serialization str.length) str

theorem packString_eq {str : Bytes} (small : str.length < 2 ^ 32) :
    packString useStr8Serialization str = (Scalar.ofString useStr8Serialization str).bytes := by
  rw [packString, packRaw_eq small]
  rfl

theorem Scalar.fits_ofString {str : Bytes}
    (small : str.length < 2 ^ 32) : (Scalar.ofString useStr8Serialization str).Fits :=
  RawWidth.lt_limit_ofLength small

theorem RawWidth.length_of_w8 {l : Nat}
    (w8 : RawWidth.ofLength useStr8Serialization l = .w8) : 32 ≤ l := by
  unfold RawWidth.ofLength at w8
  split at w8
  · cases w8
  · omega

end PhpExts.Msgpack
