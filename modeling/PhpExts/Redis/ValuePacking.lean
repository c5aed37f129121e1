import Mathlib

/-!
# Packing of values

Without a serializer a value is compressed where it can be, and sent as it is where it can not. A
value that comes back is taken as compressed first, with buffers that are doubled until it fits. This
gives the value back just where the buffers are of a size that an `int` can hold and a value that was
sent as it is does not look like a compressed one (`roundTrip_iff`).
-/

namespace PhpExts.Redis.ValuePacking

/-- What `lzf_decompress` leaves in `errno`. -/
inductive Errno
  | e2big
  | other
deriving DecidableEq

/-- What is known of the library: `decode` is the meaning of its encodings. -/
structure Lzf where
  compress : List UInt8 → Nat → Option (List UInt8)
  decompress : List UInt8 → Nat → Except Errno (List UInt8)
  decode : List UInt8 → Option (List UInt8)
  compress_ne_nil : ∀ v room c, compress v room = some c → c ≠ []
  compress_fits : ∀ v room c, compress v room = some c → c.length ≤ room
  decode_compress : ∀ v room c, compress v room = some c → decode c = some v
  decompress_enough : ∀ c v room, decode c = some v → v.length ≤ room → decompress c room = .ok v
  decompress_short : ∀ c v room, decode c = some v → room < v.length →
    decompress c room = .error .e2big
  decompress_other : ∀ c room, decode c = none → decompress c room = .error .other

/-- The room that `redis_pack` gives to the compressed value, with `LZF_MARGIN`. -/
def packRoom (len : Nat) : Nat :=
  len + min (2 ^ 32 - 1 - len) (max 128 (len / 25))

/-- `redis_pack`, for strings without a serializer; `none` where the length is no `int`. -/
def redisPack (lzf : Lzf) (v : List UInt8) : Option (List UInt8) :=
  match lzf.compress v (packRoom v.length) with
  | some data => if data.length < 2 ^ 31 then some data else none
  | none => some v

/-- The value of an `int`. -/
def toInt (n : Int) : Int :=
  n.bmod (2 ^ 32)

/-- The buffer sizes of a call, and what its callers take: the string that was unpacked, or `val`
itself where the call returns 0, which is what `redis_unserialize` does without a serializer. -/
structure Unpacked where
  sizes : List Int
  value : List UInt8

/-- The loop of `redis_unpack`; `none` where it does not end, and where `emalloc` stops the process
as the size is negative. -/
def unpackLoop (lzf : Lzf) (val : List UInt8) : Nat → Int → Option Unpacked
  | 0, _ => none
  | fuel + 1, i =>
    let size := toInt (i * val.length)
    if size < 0 then none
    else
      match lzf.decompress val size.toNat with
      | .ok [] | .error .e2big =>
        (unpackLoop lzf val fuel (toInt (i * 2))).map fun result =>
          ⟨size :: result.sizes, result.value⟩
      | .ok data => some ⟨[size], data⟩
      | .error .other => some ⟨[size], val⟩

def redisUnpack (lzf : Lzf) (fuel : Nat) (val : List UInt8) : Option Unpacked :=
  unpackLoop lzf val fuel 2

/-! ## The property and its condition -/

/-- The value is packed, unpacking ends with it, and every buffer has a positive size. -/
def RoundTrip (lzf : Lzf) (v : List UInt8) : Prop :=
  ∃ val fuel result, redisPack lzf v = some val ∧ redisUnpack lzf fuel val = some result ∧
    result.value = v ∧ ∀ size ∈ result.sizes, 0 < size

/-- Doubling the length of the compressed value comes to the length of the value before it comes to
`2 ^ 31`. -/
def Reaches (packed len : Nat) : Prop :=
  ∃ k, 1 ≤ k ∧ len ≤ 2 ^ k * packed ∧ 2 ^ k * packed < 2 ^ 31

/-- The condition: the value is not empty, and is compressed to a length from which doubling reaches
its own, or is shorter than `2 ^ 30` and no encoding of another one. -/
def Safe (lzf : Lzf) (v : List UInt8) : Prop :=
  v ≠ [] ∧
    match lzf.compress v (packRoom v.length) with
    | some data => Reaches data.length v.length
    | none => v.length < 2 ^ 30 ∧ ∀ w, lzf.decode v = some w → w = v

section

variable {lzf : Lzf} {val : List UInt8}

theorem toInt_mul (j : Nat) (n : Int) : toInt (toInt (2 ^ j) * n) = toInt (2 ^ j * n) :=
  Int.bmod_mul_bmod

theorem toInt_of_lt {n : Nat} (less : n < 2 ^ 31) : toInt n = n := by
  apply Int.bmod_eq_of_le <;> omega

theorem toInt_neg {n : Nat} (least : 2 ^ 31 ≤ n) (less : n < 2 ^ 32) : toInt n < 0 := by
  apply (Int.bmod_neg_iff (by omega) (by omega)).mpr
  right
  omega

theorem cast_mul (j n : Nat) : (2 : Int) ^ j * (n : Int) = ((2 ^ j * n : Nat) : Int) := by
  push_cast
  rfl

theorem unpackLoop_succ (fuel j : Nat) (less : 2 ^ j * val.length < 2 ^ 31) :
    unpackLoop lzf val (fuel + 1) (toInt (2 ^ j)) =
      match lzf.decompress val (2 ^ j * val.length) with
      | .ok [] | .error .e2big =>
        (unpackLoop lzf val fuel (toInt (2 ^ (j + 1)))).map fun result =>
          ⟨((2 ^ j * val.length : Nat) : Int) :: result.sizes, result.value⟩
      | .ok data => some ⟨[((2 ^ j * val.length : Nat) : Int)], data⟩
      | .error .other => some ⟨[((2 ^ j * val.length : Nat) : Int)], val⟩ := by
  have next : toInt (toInt (2 ^ j) * 2) = toInt (2 ^ (j + 1)) := by
    rw [toInt_mul, pow_succ]
  rw [unpackLoop]
  simp only [toInt_mul, cast_mul, toInt_of_lt less, next, Int.toNat_natCast]
  rw [if_neg (Int.not_lt.mpr (Int.natCast_nonneg _))]

theorem unpackLoop_overflow (fuel j : Nat) (least : 2 ^ 31 ≤ 2 ^ j * val.length)
    (less : 2 ^ j * val.length < 2 ^ 32) : unpackLoop lzf val fuel (toInt (2 ^ j)) = none := by
  cases fuel with
  | zero => rfl
  | succ fuel =>
    rw [unpackLoop]
    simp only [toInt_mul, cast_mul]
    rw [if_pos (toInt_neg least less)]

theorem unpackLoop_short (fuel j : Nat) (less : 2 ^ j * val.length < 2 ^ 31) {w : List UInt8}
    (meaning : lzf.decode val = some w) (short : 2 ^ j * val.length < w.length) :
    unpackLoop lzf val (fuel + 1) (toInt (2 ^ j)) =
      (unpackLoop lzf val fuel (toInt (2 ^ (j + 1)))).map fun result =>
        ⟨((2 ^ j * val.length : Nat) : Int) :: result.sizes, result.value⟩ := by
  rw [unpackLoop_succ fuel j less, lzf.decompress_short val w _ meaning short]

theorem unpackLoop_enough (fuel j : Nat) (less : 2 ^ j * val.length < 2 ^ 31) {w : List UInt8}
    (meaning : lzf.decode val = some w) (enough : w.length ≤ 2 ^ j * val.length) (some_ : w ≠ []) :
    unpackLoop lzf val (fuel + 1) (toInt (2 ^ j)) =
      some ⟨[((2 ^ j * val.length : Nat) : Int)], w⟩ := by
  rw [unpackLoop_succ fuel j less, lzf.decompress_enough val w _ meaning enough]
  cases w with
  | nil => exact absurd rfl some_
  | cons byte rest => rfl

theorem unpackLoop_raw (fuel j : Nat) (less : 2 ^ j * val.length < 2 ^ 31)
    (meaning : lzf.decode val = none) : unpackLoop lzf val (fuel + 1) (toInt (2 ^ j)) =
      some ⟨[((2 ^ j * val.length : Nat) : Int)], val⟩ := by
  rw [unpackLoop_succ fuel j less, lzf.decompress_other val _ meaning]

/-- **Doubling comes to the value; the induction is on how often.** -/
theorem unpackLoop_of_reaches {w : List UInt8} (meaning : lzf.decode val = some w)
    (packed : val ≠ []) (some_ : w ≠ []) (m j : Nat) (enough : w.length ≤ 2 ^ (j + m) * val.length)
    (less : 2 ^ (j + m) * val.length < 2 ^ 31) :
    ∃ result, unpackLoop lzf val (m + 1) (toInt (2 ^ j)) = some result ∧ result.value = w ∧
      ∀ size ∈ result.sizes, 0 < size := by
  have length : 0 < val.length := List.length_pos_iff.mpr packed
  have positive : ∀ j, (0 : Int) < ((2 ^ j * val.length : Nat) : Int) := fun j =>
    Int.natCast_pos.mpr (Nat.mul_pos (Nat.two_pow_pos j) length)
  induction m generalizing j with
  | zero =>
    refine ⟨_, unpackLoop_enough 0 j less meaning enough some_, rfl, fun size mem => ?_⟩
    rw [List.mem_singleton.mp mem]
    exact positive j
  | succ m ih =>
    have within : 2 ^ j * val.length < 2 ^ 31 := by
      refine Nat.lt_of_le_of_lt (Nat.mul_le_mul_right _ ?_) less
      exact Nat.pow_le_pow_right (by decide) (Nat.le_add_right _ _)
    rcases Nat.lt_or_ge (2 ^ j * val.length) w.length with short | fits
    · have shift : j + 1 + m = j + (m + 1) := by omega
      obtain ⟨result, found, value, sizes⟩ := ih (j + 1) (shift ▸ enough) (shift ▸ less)
      refine ⟨⟨((2 ^ j * val.length : Nat) : Int) :: result.sizes, result.value⟩, ?_, value,
        fun size mem => ?_⟩
      · rw [unpackLoop_short (m + 1) j within meaning short, found]
        rfl
      · rcases List.mem_cons.mp mem with rfl | rest
        · exact positive j
        · exact sizes size rest
    · refine ⟨_, unpackLoop_enough (m + 1) j within meaning fits some_, rfl,
        fun size mem => ?_⟩
      rw [List.mem_singleton.mp mem]
      exact positive j

/-- **What a loop that ends has come to; the induction is on the turns that are left.** -/
theorem reaches_of_unpackLoop {w : List UInt8} (meaning : lzf.decode val = some w) {fuel j : Nat}
    (below : 2 ^ j * val.length < 2 ^ 32) {result : Unpacked}
    (ends : unpackLoop lzf val fuel (toInt (2 ^ j)) = some result) : result.value = w ∧ w ≠ [] ∧
      ∃ k, j ≤ k ∧ w.length ≤ 2 ^ k * val.length ∧ 2 ^ k * val.length < 2 ^ 31 := by
  induction fuel generalizing j result with
  | zero => cases ends
  | succ fuel ih =>
    rcases Nat.lt_or_ge (2 ^ j * val.length) (2 ^ 31) with less | least
    · have below' : 2 ^ (j + 1) * val.length < 2 ^ 32 := by
        rw [pow_succ, Nat.mul_right_comm]
        omega
      rcases Nat.lt_or_ge (2 ^ j * val.length) w.length with short | fits
      · rw [unpackLoop_short fuel j less meaning short] at ends
        obtain ⟨further, found, rfl⟩ := Option.map_eq_some_iff.mp ends
        obtain ⟨value, some_, k, later, enough, within⟩ := ih below' found
        exact ⟨value, some_, k, by omega, enough, within⟩
      · by_cases empty : w = []
        · -- a length of zero is taken for a failure, with the old `errno`
          rw [unpackLoop_succ fuel j less, lzf.decompress_enough val w _ meaning fits,
            empty] at ends
          obtain ⟨further, found, rfl⟩ := Option.map_eq_some_iff.mp ends
          obtain ⟨value, some_, -⟩ := ih below' found
          exact absurd empty some_
        · rw [unpackLoop_enough fuel j less meaning fits empty] at ends
          obtain rfl := Option.some_inj.mp ends
          exact ⟨rfl, empty, j, Nat.le_refl _, fits, less⟩
    · rw [unpackLoop_overflow (fuel + 1) j least below] at ends
      cases ends

end

variable {lzf : Lzf} {v : List UInt8}

theorem redisUnpack_eq (fuel : Nat) (val : List UInt8) :
    redisUnpack lzf fuel val = unpackLoop lzf val fuel (toInt (2 ^ 1)) := rfl

theorem roundTrip_raw (length : v.length < 2 ^ 31)
    (raw : lzf.compress v (packRoom v.length) = none) :
    RoundTrip lzf v ↔ v ≠ [] ∧ v.length < 2 ^ 30 ∧ ∀ w, lzf.decode v = some w → w = v := by
  have packs : redisPack lzf v = some v := by rw [redisPack, raw]
  constructor
  · rintro ⟨val, fuel, result, packed, ends, value, sizes⟩
    obtain rfl := Option.some_inj.mp (packs.symm.trans packed)
    rw [redisUnpack_eq] at ends
    have below : 2 ^ 1 * v.length < 2 ^ 32 := by omega
    cases meaning : lzf.decode v with
    | none =>
      cases fuel with
      | zero => cases ends
      | succ fuel =>
        rcases Nat.lt_or_ge (2 ^ 1 * v.length) (2 ^ 31) with less | least
        · rw [unpackLoop_raw fuel 1 less meaning] at ends
          obtain rfl := Option.some_inj.mp ends
          have positive := sizes _ (List.mem_singleton.mpr rfl)
          refine ⟨?_, by omega, fun w other => absurd other (by simp)⟩
          rintro rfl
          exact absurd positive (by simp)
        · rw [unpackLoop_overflow (fuel + 1) 1 least below] at ends
          cases ends
    | some w =>
      obtain ⟨equal, some_, k, later, -, within⟩ := reaches_of_unpackLoop meaning below ends
      obtain rfl : v = w := value.symm.trans equal
      refine ⟨some_, ?_, fun other same => (Option.some_inj.mp same).symm⟩
      have := Nat.mul_le_mul_right v.length (Nat.pow_le_pow_right (n := 2) (by decide) later)
      omega
  · rintro ⟨some_, less, own⟩
    have within : 2 ^ 1 * v.length < 2 ^ 31 := by omega
    cases meaning : lzf.decode v with
    | none =>
      refine ⟨v, 1, _, packs, unpackLoop_raw 0 1 within meaning, rfl, fun size mem => ?_⟩
      have := List.length_pos_iff.mpr some_
      rw [List.mem_singleton.mp mem]
      omega
    | some w =>
      obtain rfl := own w meaning
      obtain ⟨result, ends, value, sizes⟩ :=
        unpackLoop_of_reaches meaning some_ some_ 0 1 (by omega) within
      exact ⟨_, 1, result, packs, ends, value, sizes⟩

theorem roundTrip_compressed {data : List UInt8}
    (compressed : lzf.compress v (packRoom v.length) = some data) :
    RoundTrip lzf v ↔ v ≠ [] ∧ Reaches data.length v.length := by
  have meaning := lzf.decode_compress v _ data compressed
  have packed := lzf.compress_ne_nil v _ data compressed
  constructor
  · rintro ⟨val, fuel, result, packs, ends, value, sizes⟩
    rw [redisPack, compressed] at packs
    dsimp only at packs
    split at packs
    · obtain rfl := Option.some_inj.mp packs
      have below : 2 ^ 1 * data.length < 2 ^ 32 := by omega
      rw [redisUnpack_eq] at ends
      obtain ⟨-, some_, reached⟩ := reaches_of_unpackLoop meaning below ends
      exact ⟨some_, reached⟩
    · cases packs
  · rintro ⟨some_, k, later, enough, within⟩
    obtain ⟨m, rfl⟩ := Nat.exists_eq_add_of_le later
    have less : data.length < 2 ^ 31 :=
      Nat.lt_of_le_of_lt (Nat.le_mul_of_pos_left _ (Nat.two_pow_pos _)) within
    obtain ⟨result, ends, value, sizes⟩ :=
      unpackLoop_of_reaches meaning packed some_ m 1 enough within
    refine ⟨data, m + 1, result, ?_, ends, value, sizes⟩
    rw [redisPack, compressed]
    exact if_pos less

/-- **Packing is undone exactly where it is safe.** Strings have a length that is an `int`. -/
theorem roundTrip_iff (lzf : Lzf) (v : List UInt8) (length : v.length < 2 ^ 31) :
    RoundTrip lzf v ↔ Safe lzf v := by
  cases compressed : lzf.compress v (packRoom v.length) with
  | none => rw [roundTrip_raw length compressed, Safe, compressed]
  | some data => rw [roundTrip_compressed compressed, Safe, compressed]

/-- The encodings that are one byte behind the mark of a run of one. -/
def singles : Lzf where
  compress
    | [byte], room => if 2 ≤ room then some [0, byte] else none
    | _, _ => none
  decode
    | [0, byte] => some [byte]
    | _ => none
  decompress
    | [0, byte], room => if 1 ≤ room then .ok [byte] else .error .e2big
    | _, _ => .error .other
  compress_ne_nil := by
    intro v room c compressed
    split at compressed
    · split at compressed
      · rw [← Option.some_inj.mp compressed]
        exact List.cons_ne_nil _ _
      · cases compressed
    · cases compressed
  compress_fits := by
    intro v room c compressed
    split at compressed
    · split at compressed
      · rw [← Option.some_inj.mp compressed]
        assumption
      · cases compressed
    · cases compressed
  decode_compress := by
    intro v room c compressed
    split at compressed
    · split at compressed
      · rw [← Option.some_inj.mp compressed]
        rfl
      · cases compressed
    · cases compressed
  decompress_enough := by
    intro c v room meaning enough
    split at meaning
    · obtain rfl := Option.some_inj.mp meaning
      exact if_pos enough
    · cases meaning
  decompress_short := by
    intro c v room meaning short
    split at meaning
    · obtain rfl := Option.some_inj.mp meaning
      exact if_neg (Nat.not_le.mpr short)
    · cases meaning
  decompress_other := by
    intro c room meaning
    split at meaning
    · cases meaning
    · rename_i other
      split
      · exact absurd rfl (other _)
      · rfl

theorem roundTrip_single : RoundTrip singles [65] := by
  apply (roundTrip_iff singles [65] (by decide)).mpr
  exact ⟨List.cons_ne_nil _ _, 1, by decide, by decide, by decide⟩

/-- The buffer for an empty string has no positive size. -/
theorem not_roundTrip : ¬ ∀ lzf v, List.length v < 2 ^ 31 → RoundTrip lzf v := by
  intro all
  have raw : singles.compress [] (packRoom 0) = none := rfl
  exact ((roundTrip_raw (by decide) raw).mp (all singles [] (by decide))).1 rfl

end PhpExts.Redis.ValuePacking
