import PhpExts.Library.BigEndian

/-!
# WebSocket frames of Swoole

The encoder, the function that reads the length of a frame from its first bytes, and the
decoder each work out the length of the header on their own. Next to them stands the
length RFC 6455 gives (`rfcLength`).

What is encoded is decoded again (`roundTrips_iff`), except for an empty payload that is
to be masked, for which the key is left out, and where the payload does not fit in the
buffer and the block moves. The length read from a header is right (`framed_iff`) when it
fits in `int`, and where it does not it is negative or wrong.
-/

namespace PhpExts.Swoole.WebSocket

open PhpExts.Library
open List (append_assoc cons_append length_append length_cons length_take)

/-- The conversion of an unsigned number to `int`. -/
def toInt (n : Nat) : Int :=
  if n % 2 ^ 32 < 2 ^ 31 then (n % 2 ^ 32 : Nat) else (n % 2 ^ 32 : Nat) - 2 ^ 32

/-- The `k` bytes from the index `i` on. -/
def readBytes (data : List UInt8) (i k : Nat) : List UInt8 :=
  (List.range' i k).map fun j => data.getD j 0

/-- The end of `swWebSocket_get_package_length`, behind the length field. -/
def packageLength (mask : Bool) (length headerLength payloadLength : Nat) : Int :=
  if mask then
    if length < headerLength + 4 then 0
    else toInt ((headerLength + 4 + payloadLength) % 2 ^ 64)
  else toInt ((headerLength + payloadLength) % 2 ^ 64)

/-- `swWebSocket_get_package_length`: the length, and the indices of the bytes it reads. -/
def swWebSocketGetPackageLength (buf : List UInt8) (length : Nat) : Int × List Nat :=
  if length < 2 then (0, [])
  else
    let mask := decide ((buf.getD 1 0).toNat / 128 = 1)
    let payloadLength := (buf.getD 1 0).toNat % 128
    if payloadLength = 0x7e then
      if length < 4 then (0, [1])
      else (packageLength mask length 4 (ofBigEndian (readBytes buf 2 2)), 1 :: List.range' 2 2)
    else if 0x7e < payloadLength then
      if length < 10 then (0, [1])
      else (packageLength mask length 10 (ofBigEndian (readBytes buf 2 8)), 1 :: List.range' 2 8)
    else (packageLength mask length 2 payloadLength, [1])

structure SwString where
  content : List UInt8
  size : Nat

def swooleSizeAlign (size pagesize : Nat) : Nat := size + (pagesize - size % pagesize)

/-- `swString_append_ptr`, whose `length` and `new_size` are of the type `int`: the string,
and whether its block has been reallocated. There is none when `length` is negative or
`new_size` or its double leaves the type. -/
def swStringAppendPtr (pagesize : Nat) (str : SwString) (appendStr : List UInt8) (length : Int) :
    Option (SwString × Bool) :=
  let newSize := str.content.length + length.toNat
  if length < 0 ∨ 2 ^ 31 ≤ newSize then none
  else if str.size < newSize then
    if 2 ^ 31 ≤ newSize * 2 then none
    else some (⟨str.content ++ appendStr.take length.toNat, swooleSizeAlign (newSize * 2) pagesize⟩,
      true)
  else some (⟨str.content ++ appendStr.take length.toNat, str.size⟩, false)

def maskData : List UInt8 := [0x32, 0x35, 0x38, 0x45]

/-- The macro `FRAME_SET_LENGTH`. -/
def frameSetLength (length i : Nat) : UInt8 := UInt8.ofNat (length / 256 ^ i)

def firstByte (opcode : Nat) (finish : Bool) : UInt8 :=
  UInt8.ofNat ((if finish then 128 else 0) + opcode % 16)

def secondByte (length : Nat) (mask : Bool) : UInt8 :=
  UInt8.ofNat ((if mask then 128 else 0) + length)

/-- `frame_header` of `swWebSocket_encode`. -/
def frameHeader (length opcode : Nat) (finish mask : Bool) : List UInt8 :=
  if length < 126 then [firstByte opcode finish, secondByte length mask]
  else if length < 65536 then
    [firstByte opcode finish, secondByte 126 mask, frameSetLength length 1, frameSetLength length 0]
  else
    [firstByte opcode finish, secondByte 127 mask, frameSetLength length 7, frameSetLength length 6,
      frameSetLength length 5, frameSetLength length 4, frameSetLength length 3,
      frameSetLength length 2, frameSetLength length 1, frameSetLength length 0]

def xorKey (key data : List UInt8) : List UInt8 :=
  data.mapIdx fun i byte => byte ^^^ key.getD (i % 4) 0

/-- `swWebSocket_encode`. `moves` says whether a reallocation gives the block another
address: the loop that masks the payload works on the address from before. -/
def swWebSocketEncode (pagesize : Nat) (moves : Bool) (buffer : SwString) (data : List UInt8)
    (opcode : Nat) (finish mask : Bool) : Option SwString :=
  let header := frameHeader data.length opcode finish mask
  (swStringAppendPtr pagesize buffer header header.length).bind fun (headed, _) =>
    if 0 < data.length then
      if mask then
        (swStringAppendPtr pagesize headed maskData 4).bind fun (keyed, _) =>
          (swStringAppendPtr pagesize keyed data (toInt data.length)).map fun (filled, extended) =>
            if extended && moves then filled
            else
              ⟨keyed.content ++ xorKey maskData (filled.content.drop keyed.content.length),
                filled.size⟩
      else (swStringAppendPtr pagesize headed data (toInt data.length)).map Prod.fst
    else some headed

/-- `swWebSocket_frame`, with `LENGTH`, the seven bits of the second byte, left out. -/
structure Frame where
  fin : Bool
  rsv : Nat
  opcode : Nat
  mask : Bool
  maskKey : List UInt8
  headerLength : Nat
  payloadLength : Nat

/-- What `swWebSocket_decode` leaves: the frame, its bytes, and the indices of the bytes it
has read or written. -/
structure Decoded where
  frame : Frame
  data : List UInt8
  touched : List Nat

/-- The end of `swWebSocket_decode`, behind the length field. -/
def decodeMask (data : List UInt8) (headerLength payloadLength : Nat) (touched : List Nat) :
    Decoded :=
  let first := (data.getD 0 0).toNat
  let header : Frame :=
    { fin := first / 128 = 1, rsv := first / 16 % 8, opcode := first % 16
      mask := (data.getD 1 0).toNat / 128 = 1
      maskKey := [], headerLength := headerLength, payloadLength := payloadLength }
  if (data.getD 1 0).toNat / 128 = 1 then
    let key := readBytes data headerLength 4
    { frame := { header with maskKey := key, headerLength := headerLength + 4 }
      data := data.take (headerLength + 4) ++
        xorKey key ((data.drop (headerLength + 4)).take payloadLength) ++
        data.drop (headerLength + 4 + payloadLength)
      touched := touched ++ List.range' headerLength 4 ++
        List.range' (headerLength + 4) payloadLength }
  else { frame := header, data := data, touched := touched }

def swWebSocketDecode (data : List UInt8) : Decoded :=
  let length := (data.getD 1 0).toNat % 128
  if length = 0x7e then
    decodeMask data 4 (ofBigEndian (readBytes data 2 2)) (0 :: 1 :: List.range' 2 2)
  else if 0x7e < length then
    decodeMask data 10 (ofBigEndian (readBytes data 2 8)) (0 :: 1 :: List.range' 2 8)
  else decodeMask data 2 length [0, 1]

def Decoded.payload (decoded : Decoded) : List UInt8 :=
  (decoded.data.drop decoded.frame.headerLength).take decoded.frame.payloadLength

/-! ## The length of a frame -/

/-- The bytes of the extended payload length. -/
def extended (second : UInt8) : Nat :=
  if second.toNat % 128 = 126 then 2 else if second.toNat % 128 = 127 then 8 else 0

def keyLength (second : UInt8) : Nat := if second.toNat / 128 = 1 then 4 else 0

/-- The payload length that the bytes behind the second one announce. -/
def announced (second : UInt8) (rest : List UInt8) : Nat :=
  if extended second = 0 then second.toNat % 128 else ofBigEndian (rest.take (extended second))

def rfcLength : List UInt8 → Option Nat
  | _ :: second :: rest =>
    if rest.length < extended second + keyLength second then none
    else some (2 + extended second + keyLength second + announced second rest)
  | _ => none

theorem readBytes_eq {data : List UInt8} {i k : Nat} (inside : i + k ≤ data.length) :
    readBytes data i k = (data.drop i).take k := by
  refine List.ext_getElem (by simp [readBytes]; omega) fun j low high => ?_
  have small : i + j < data.length := by
    simp only [readBytes, List.length_map, List.length_range'] at low
    omega
  simp [readBytes, List.getD_eq_getElem?_getD, List.getElem?_eq_getElem small]

@[simp] theorem length_xorKey (key data : List UInt8) : (xorKey key data).length = data.length := by
  simp [xorKey]

theorem xorKey_xorKey (key data : List UInt8) : xorKey key (xorKey key data) = data := by
  refine List.ext_getElem (by simp) fun i _ _ => ?_
  simp only [xorKey, List.getElem_mapIdx, UInt8.xor_assoc, UInt8.xor_self, UInt8.xor_zero]

/-! ## Lengths that are read -/

section

variable {bytes rest : List UInt8} {first second : UInt8} {total : Nat}

theorem toNat_div (second : UInt8) : second.toNat / 128 = 0 ∨ second.toNat / 128 = 1 := by
  have small := second.toNat_lt
  omega

theorem extended_cases (second : UInt8) : (second.toNat % 128 = 126 ∧ extended second = 2) ∨
      (126 < second.toNat % 128 ∧ extended second = 8) ∨
      (second.toNat % 128 < 126 ∧ extended second = 0) := by
  have small : second.toNat % 128 < 128 := Nat.mod_lt _ (by decide)
  unfold extended
  split_ifs with two eight
  · exact .inl ⟨two, rfl⟩
  · exact .inr (.inl ⟨by omega, rfl⟩)
  · exact .inr (.inr ⟨by omega, rfl⟩)

theorem ofBigEndian_readBytes {k : Nat} (format : extended second = k) (positive : k ≠ 0)
    (inside : k ≤ rest.length) :
    ofBigEndian (readBytes (first :: second :: rest) 2 k) = announced second rest := by
  rw [readBytes_eq (by simp only [length_cons]; omega), announced, if_neg (by omega), format]
  rfl

theorem getPackageLength_cons (first second : UInt8) (rest : List UInt8) :
    swWebSocketGetPackageLength (first :: second :: rest) (first :: second :: rest).length =
      if rest.length < extended second then (0, [1])
      else (packageLength (decide (second.toNat / 128 = 1)) (rest.length + 2)
        (2 + extended second) (announced second rest), 1 :: List.range' 2 (extended second)) := by
  have two : ¬ (first :: second :: rest).length < 2 := by simp
  have byte : (first :: second :: rest).getD 1 0 = second := rfl
  have length : (first :: second :: rest).length = rest.length + 2 := rfl
  rw [swWebSocketGetPackageLength, if_neg two, byte, length]
  rcases extended_cases second with ⟨seven, format⟩ | ⟨seven, format⟩ | ⟨seven, format⟩
  · simp only [seven, format, if_true, show rest.length + 2 < 4 ↔ rest.length < 2 by omega]
    by_cases short : rest.length < 2
    · rw [if_pos short, if_pos short]
    · rw [if_neg short, if_neg short, ofBigEndian_readBytes format (by decide) (by omega)]
  · simp only [seven, format, if_true, if_neg (show second.toNat % 128 ≠ 126 by omega),
      show rest.length + 2 < 10 ↔ rest.length < 8 by omega]
    by_cases short : rest.length < 8
    · rw [if_pos short, if_pos short]
    · rw [if_neg short, if_neg short, ofBigEndian_readBytes format (by decide) (by omega)]
  · simp only [format, if_neg (show second.toNat % 128 ≠ 126 by omega),
      if_neg (show ¬ 126 < second.toNat % 128 by omega), Nat.not_lt_zero, if_false, announced,
      if_true]
    rfl

theorem decode_cons (first second : UInt8) (rest : List UInt8)
    (inside : extended second ≤ rest.length) : swWebSocketDecode (first :: second :: rest) =
      decodeMask (first :: second :: rest) (2 + extended second) (announced second rest)
        (0 :: 1 :: List.range' 2 (extended second)) := by
  have byte : (first :: second :: rest).getD 1 0 = second := rfl
  rw [swWebSocketDecode, byte]
  rcases extended_cases second with ⟨seven, format⟩ | ⟨seven, format⟩ | ⟨seven, format⟩
  · simp only [seven, format, if_true]
    rw [ofBigEndian_readBytes format (by decide) (by omega)]
  · simp only [seven, format, if_true, if_neg (show second.toNat % 128 ≠ 126 by omega)]
    rw [ofBigEndian_readBytes format (by decide) (by omega)]
  · simp only [format, if_neg (show second.toNat % 128 ≠ 126 by omega),
      if_neg (show ¬ 126 < second.toNat % 128 by omega), announced, if_true]
    rfl

theorem packageLength_eq (second : UInt8) (length headerLength payloadLength : Nat)
    (long : headerLength ≤ length) :
    packageLength (decide (second.toNat / 128 = 1)) length headerLength payloadLength =
      if length < headerLength + keyLength second then 0
      else toInt ((headerLength + keyLength second + payloadLength) % 2 ^ 64) := by
  unfold packageLength keyLength
  rcases toNat_div second with none | key
  · simp only [none, Nat.zero_ne_one, decide_false, Bool.false_eq_true, if_false, Nat.add_zero]
    rw [if_neg (by omega)]
  · simp only [key, decide_true, if_true]

theorem getPackageLength_eq (bytes : List UInt8) :
    (swWebSocketGetPackageLength bytes bytes.length).1 = match rfcLength bytes with
      | none => 0
      | some total => toInt (total % 2 ^ 64) := by
  rcases bytes with _ | ⟨first, _ | ⟨second, rest⟩⟩
  · rfl
  · rfl
  · rw [getPackageLength_cons, rfcLength]
    by_cases short : rest.length < extended second
    · rw [if_pos short, if_pos (by omega)]
    · rw [if_neg short]
      simp only
      rw [packageLength_eq _ _ _ _ (by omega)]
      by_cases keyless : rest.length < extended second + keyLength second
      · rw [if_pos keyless, if_pos (by omega)]
      · rw [if_neg keyless, if_neg (by omega)]

theorem getPackageLength_inside (bytes : List UInt8) :
    ∀ i ∈ (swWebSocketGetPackageLength bytes bytes.length).2, i < bytes.length := by
  rcases bytes with _ | ⟨first, _ | ⟨second, rest⟩⟩
  · exact fun i read => absurd read List.not_mem_nil
  · exact fun i read => absurd read List.not_mem_nil
  · rw [getPackageLength_cons]
    intro i read
    rw [length_cons, length_cons]
    by_cases short : rest.length < extended second
    · rw [if_pos short] at read
      rw [List.mem_singleton.mp read]
      omega
    · rw [if_neg short] at read
      rcases List.mem_cons.mp read with rfl | read
      · omega
      · have bounds := List.mem_range'_1.mp read
        omega

theorem rfcLength_some (found : rfcLength bytes = some total) :
    ∃ first second rest, bytes = first :: second :: rest ∧
      extended second + keyLength second ≤ rest.length ∧
      2 + extended second + keyLength second + announced second rest = total := by
  rcases bytes with _ | ⟨first, _ | ⟨second, rest⟩⟩
  · cases found
  · cases found
  · rw [rfcLength] at found
    by_cases short : rest.length < extended second + keyLength second
    · rw [if_pos short] at found
      cases found
    · rw [if_neg short] at found
      exact ⟨first, second, rest, rfl, by omega, Option.some.inj found⟩

theorem decode_length (found : rfcLength bytes = some total) :
    (swWebSocketDecode bytes).frame.headerLength + (swWebSocketDecode bytes).frame.payloadLength =
        total ∧ ∀ i ∈ (swWebSocketDecode bytes).touched, i < total := by
  obtain ⟨first, second, rest, rfl, long, total⟩ := rfcLength_some found
  rw [decode_cons _ _ _ (by omega), decodeMask]
  have byte : (first :: second :: rest).getD 1 0 = second := rfl
  rw [byte]
  rcases toNat_div second with none | key
  · have keyless : keyLength second = 0 := if_neg (by omega)
    rw [if_neg (by omega)]
    refine ⟨by simp only; omega, fun i touched => ?_⟩
    simp only [List.mem_cons, List.mem_range'_1] at touched
    omega
  · have four : keyLength second = 4 := if_pos key
    rw [if_pos key]
    refine ⟨by simp only; omega, fun i touched => ?_⟩
    simp only [List.mem_cons, cons_append, append_assoc, List.mem_append,
      List.mem_range'_1] at touched
    omega

theorem rfcLength_frame (found : rfcLength bytes = some total) (more : List UInt8)
    (enough : total ≤ (bytes ++ more).length) :
    rfcLength ((bytes ++ more).take total) = some total := by
  obtain ⟨first, second, rest, rfl, long, length⟩ := rfcLength_some found
  obtain ⟨n, rfl⟩ : ∃ n, total = n + 2 := ⟨total - 2, by omega⟩
  simp only [cons_append, length_cons, length_append] at enough
  rw [cons_append, cons_append, List.take_succ_cons, List.take_succ_cons, rfcLength,
    if_neg (by simp only [length_take, length_append]; omega)]
  have same : announced second ((rest ++ more).take n) = announced second rest := by
    unfold announced
    rw [List.take_take, Nat.min_eq_left (by omega), List.take_append_of_le_length (by omega)]
  rw [same, length]

end

/-- What is read from received bytes: the length is zero while the header is incomplete,
and then the length of the frame or negative; only bytes that are there are read, and the
decoder stays inside a frame of that length. -/
structure Framed (bytes : List UInt8) : Prop where
  inside : ∀ i ∈ (swWebSocketGetPackageLength bytes bytes.length).2, i < bytes.length
  answer : match rfcLength bytes with
    | none => (swWebSocketGetPackageLength bytes bytes.length).1 = 0
    | some total => (swWebSocketGetPackageLength bytes bytes.length).1 = total ∨
        (swWebSocketGetPackageLength bytes bytes.length).1 < 0
  decodes : ∀ n : Nat, 0 < n → (swWebSocketGetPackageLength bytes bytes.length).1 = n →
    ∀ more, n ≤ (bytes ++ more).length →
      ∀ i ∈ (swWebSocketDecode ((bytes ++ more).take n)).touched, i < n

theorem Framed.fits {bytes : List UInt8} (framed : Framed bytes) {total : Nat}
    (found : rfcLength bytes = some total) : total < 2 ^ 31 ∨ 2 ^ 31 ≤ total % 2 ^ 32 := by
  have answer := framed.answer
  rw [getPackageLength_eq, found] at answer
  simp only [toInt] at answer
  omega

/-- **Received bytes are framed exactly when the length of the frame fits in `int` or
becomes negative in it.** -/
theorem framed_iff (bytes : List UInt8) : Framed bytes ↔ ∀ total, rfcLength bytes = some total →
      total < 2 ^ 31 ∨ 2 ^ 31 ≤ total % 2 ^ 32 := by
  have computed := getPackageLength_eq bytes
  constructor
  · exact fun framed total found => framed.fits found
  · intro fits
    refine ⟨getPackageLength_inside bytes, ?_, fun n positive length more enough => ?_⟩
    · cases found : rfcLength bytes with
      | none => simpa only [found] using computed
      | some total =>
        have fits := fits total found
        rw [found] at computed
        simp only [computed, toInt]
        omega
    · cases found : rfcLength bytes with
      | none =>
        rw [computed, found] at length
        simp only at length
        omega
      | some total =>
        have fits := fits total found
        rw [computed, found] at length
        simp only [toInt] at length
        obtain rfl : n = total := by omega
        exact (decode_length (rfcLength_frame found more enough)).2

/-- A header that announces `2 ^ 32` bytes is taken for a frame of ten bytes, which is the
header alone. -/
theorem not_framed_wide : ¬ Framed [0x82, 0x7f, 0, 0, 0, 1, 0, 0, 0, 0] := by
  intro framed
  have fits := framed.fits (show rfcLength _ = some (2 ^ 32 + 10) by decide)
  omega

/-! ## Frames that are written -/

/-- A string of the length and size takes `k` more bytes. -/
def Room (length size k : Nat) : Prop :=
  length + k < 2 ^ 31 ∧ (size < length + k → length + k < 2 ^ 30)

/-- The size of the block when `k` more bytes are in it. -/
def grown (pagesize length size k : Nat) : Nat :=
  if size < length + k then swooleSizeAlign ((length + k) * 2) pagesize else size

theorem append_some {pagesize : Nat} {str str' : SwString} {bytes : List UInt8} {length : Int}
    {moved : Bool} : swStringAppendPtr pagesize str bytes length = some (str', moved) ↔
      0 ≤ length ∧ Room str.content.length str.size length.toNat ∧
        str' = ⟨str.content ++ bytes.take length.toNat,
          grown pagesize str.content.length str.size length.toNat⟩ ∧
        moved = decide (str.size < str.content.length + length.toNat) := by
  rw [swStringAppendPtr, Room, grown]
  by_cases outside : length < 0 ∨ 2 ^ 31 ≤ str.content.length + length.toNat
  · simp only [outside, if_true, reduceCtorEq, false_iff]
    rintro ⟨positive, ⟨room, -⟩, -⟩
    omega
  simp only [outside, if_false]
  by_cases full : str.size < str.content.length + length.toNat
  · simp only [full, if_true, true_implies, decide_true]
    by_cases wide : 2 ^ 31 ≤ (str.content.length + length.toNat) * 2
    · simp only [wide, if_true, reduceCtorEq, false_iff]
      rintro ⟨-, ⟨-, room⟩, -⟩
      omega
    · simp only [wide, if_false, Option.some.injEq, Prod.mk.injEq]
      constructor
      · rintro ⟨rfl, rfl⟩
        exact ⟨by omega, ⟨by omega, by omega⟩, rfl, rfl⟩
      · rintro ⟨-, -, rfl, rfl⟩
        exact ⟨rfl, rfl⟩
  · simp only [full, if_false, false_implies, decide_false, Option.some.injEq, Prod.mk.injEq]
    constructor
    · rintro ⟨rfl, rfl⟩
      exact ⟨by omega, ⟨by omega, trivial⟩, rfl, rfl⟩
    · rintro ⟨-, -, rfl, rfl⟩
      exact ⟨rfl, rfl⟩

def headerLength (length : Nat) : Nat :=
  if length < 126 then 2 else if length < 65536 then 4 else 10

/-- The key that `swWebSocket_encode` writes. -/
def keyBytes (mask : Bool) : List UInt8 := if mask then maskData else []

theorem toNat_secondByte {length : Nat} (small : length < 128) (mask : Bool) :
    (secondByte length mask).toNat % 128 = length ∧
      ((secondByte length mask).toNat / 128 = 1 ↔ mask = true) ∧
      keyLength (secondByte length mask) = (keyBytes mask).length := by
  cases mask with
  | false =>
    have value : (secondByte length false).toNat = length := by
      simp only [secondByte, UInt8.toNat_ofNat', Bool.false_eq_true, if_false]
      omega
    rw [keyLength, value, if_neg (by omega)]
    exact ⟨by omega, by simp; omega, rfl⟩
  | true =>
    have value : (secondByte length true).toNat = 128 + length := by
      simp only [secondByte, UInt8.toNat_ofNat', if_true]
      omega
    rw [keyLength, value, if_pos (by omega)]
    exact ⟨by omega, by simp; omega, rfl⟩

theorem frameHeader_eq (length opcode : Nat) (finish mask : Bool) :
    ∃ second k, frameHeader length opcode finish mask =
        firstByte opcode finish :: second :: bigEndian k length ∧
      extended second = k ∧ keyLength second = (keyBytes mask).length ∧
      (second.toNat / 128 = 1 ↔ mask = true) ∧ headerLength length = 2 + k ∧
      ∀ rest, announced second (bigEndian k length ++ rest) = length % 2 ^ 64 := by
  rw [frameHeader, headerLength]
  by_cases short : length < 126
  · obtain ⟨low, top, key⟩ := toNat_secondByte (show length < 128 by omega) mask
    have format : extended (secondByte length mask) = 0 := by
      rw [extended, low, if_neg (by omega), if_neg (by omega)]
    rw [if_pos short, if_pos short]
    refine ⟨_, 0, rfl, format, key, top, rfl, fun rest => ?_⟩
    rw [announced, if_pos format, low]
    omega
  rw [if_neg short, if_neg short]
  by_cases middle : length < 65536
  · obtain ⟨low, top, key⟩ := toNat_secondByte (show 126 < 128 by decide) mask
    have format : extended (secondByte 126 mask) = 2 := by rw [extended, low, if_pos rfl]
    rw [if_pos middle, if_pos middle]
    refine ⟨_, 2, rfl, format, key, top, rfl, fun rest => ?_⟩
    rw [announced, format, if_neg (by decide), List.take_left' (length_bigEndian 2 length),
      ofBigEndian_bigEndian_of_lt (by omega)]
    omega
  · obtain ⟨low, top, key⟩ := toNat_secondByte (show 127 < 128 by decide) mask
    have format : extended (secondByte 127 mask) = 8 := by
      rw [extended, low, if_neg (by decide), if_pos rfl]
    rw [if_neg middle, if_neg middle]
    refine ⟨_, 8, rfl, format, key, top, rfl, fun rest => ?_⟩
    rw [announced, format, if_neg (by decide), List.take_left' (length_bigEndian 8 length),
      ofBigEndian_bigEndian]
    rfl

theorem length_frameHeader (length opcode : Nat) (finish mask : Bool) :
    (frameHeader length opcode finish mask).length = headerLength length := by
  obtain ⟨second, k, header, -, -, -, size, -⟩ := frameHeader_eq length opcode finish mask
  rw [header, size, length_cons, length_cons, length_bigEndian]
  omega

theorem rfcLength_written (length opcode : Nat) (finish mask : Bool) (body : List UInt8) :
    rfcLength (frameHeader length opcode finish mask ++ (keyBytes mask ++ body)) =
      some (headerLength length + (keyBytes mask).length + length % 2 ^ 64) := by
  obtain ⟨second, k, header, format, key, -, size, payload⟩ :=
    frameHeader_eq length opcode finish mask
  rw [header, cons_append, cons_append, rfcLength, payload, format, key, size]
  simp only [length_append, length_bigEndian]
  rw [if_neg (by omega)]

theorem take_unmasked {front body : List UInt8} {n : Nat} (key : List UInt8) (count : Nat)
    (size : front.length = n) :
    (((front ++ body).take n ++ xorKey key (((front ++ body).drop n).take count) ++
        (front ++ body).drop (n + count)).drop n).take count = xorKey key (body.take count) := by
  rw [List.take_left' size, List.drop_left' size, append_assoc, List.drop_left' size,
    ← List.drop_drop, List.drop_left' size]
  by_cases long : count ≤ body.length
  · rw [List.take_left' (by rw [length_xorKey, length_take]; omega)]
  · rw [List.drop_of_length_le (by omega), List.append_nil, List.take_of_length_le]
    rw [length_xorKey, length_take]
    omega

theorem decode_written (length : Nat) {opcode : Nat} (small : opcode < 16) (finish mask : Bool)
    (body : List UInt8) :
    let decoded := swWebSocketDecode
      (frameHeader length opcode finish mask ++ (keyBytes mask ++ body))
    decoded.frame.opcode = opcode ∧ decoded.frame.fin = finish ∧
      decoded.payload = if mask then xorKey maskData (body.take (length % 2 ^ 64))
        else body.take (length % 2 ^ 64) := by
  obtain ⟨second, k, header, format, key, top, size, payload⟩ :=
    frameHeader_eq length opcode finish mask
  have first : (firstByte opcode finish).toNat = (if finish then 128 else 0) + opcode := by
    rw [firstByte, UInt8.toNat_ofNat']
    cases finish <;> simp only [Bool.false_eq_true, if_false, if_true] <;> omega
  have byte₀ : ∀ rest, (firstByte opcode finish :: second :: rest).getD 0 0 =
      firstByte opcode finish := fun _ => rfl
  have byte₁ : ∀ rest, (firstByte opcode finish :: second :: rest).getD 1 0 = second :=
    fun _ => rfl
  rw [header, cons_append, cons_append, decode_cons _ _ _ (by
    rw [format, length_append, length_bigEndian]
    omega), decodeMask, payload, byte₀, byte₁, first]
  cases mask with
  | false =>
    rw [if_neg (by simp [top])]
    refine ⟨?_, ?_, ?_⟩
    · cases finish <;> simp only [Bool.false_eq_true, if_false, if_true] <;> omega
    · cases finish <;> simp only [Bool.false_eq_true, if_false, if_true] <;>
        simp only [decide_eq_false_iff_not, decide_eq_true_eq] <;> omega
    · simp only [Decoded.payload, Bool.false_eq_true, if_false, format]
      rw [Nat.add_comm 2 k, List.drop_succ_cons, List.drop_succ_cons,
        List.drop_left' (length_bigEndian k length)]
      rfl
  | true =>
    rw [if_pos (top.mpr rfl)]
    refine ⟨?_, ?_, ?_⟩
    · cases finish <;> simp only [Bool.false_eq_true, if_false, if_true] <;> omega
    · cases finish <;> simp only [Bool.false_eq_true, if_false, if_true] <;>
        simp only [decide_eq_false_iff_not, decide_eq_true_eq] <;> omega
    · have front : (firstByte opcode finish :: second :: (bigEndian k length ++
          maskData)).length = 2 + k + 4 := by
        simp only [length_cons, length_append, length_bigEndian, maskData, List.length_nil]
        omega
      have whole : firstByte opcode finish :: second :: (bigEndian k length ++
          (keyBytes true ++ body)) =
            (firstByte opcode finish :: second :: (bigEndian k length ++ maskData)) ++ body := by
        simp only [cons_append, append_assoc]
        rfl
      have read : readBytes (firstByte opcode finish :: second :: (bigEndian k length ++
          (keyBytes true ++ body))) (2 + k) 4 = maskData := by
        rw [readBytes_eq (by rw [whole, length_append, front]; omega), Nat.add_comm 2 k,
          List.drop_succ_cons, List.drop_succ_cons, List.drop_left' (length_bigEndian k length)]
        rfl
      simp only [Decoded.payload, if_true, format, read]
      rw [whole]
      exact take_unmasked maskData _ front

/-- The bytes behind the old content are a frame whose length is read from them, and which
is decoded to the opcode, the flag and the payload. -/
def RoundTrips (buffer : SwString) (data : List UInt8) (opcode : Nat) (finish : Bool)
    (result : Option SwString) : Prop :=
  ∃ filled written, result = some filled ∧ filled.content = buffer.content ++ written ∧
    (swWebSocketGetPackageLength written written.length).1 = written.length ∧
    (swWebSocketDecode written).frame.opcode = opcode ∧
    (swWebSocketDecode written).frame.fin = finish ∧
    (swWebSocketDecode written).payload = data

/-- There is room for the parts of the frame, a payload that is masked is not empty, and
its block does not move. -/
structure Encodable (pagesize : Nat) (moves : Bool) (buffer : SwString) (n : Nat)
    (mask : Bool) : Prop where
  header : Room buffer.content.length buffer.size (headerLength n)
  key : mask = true → 0 < n ∧ Room (buffer.content.length + headerLength n)
    (grown pagesize buffer.content.length buffer.size (headerLength n)) 4
  data : 0 < n → ∃ size, size = (if mask then
      grown pagesize (buffer.content.length + headerLength n)
        (grown pagesize buffer.content.length buffer.size (headerLength n)) 4
      else grown pagesize buffer.content.length buffer.size (headerLength n)) ∧
    Room (buffer.content.length + headerLength n + (keyBytes mask).length) size n ∧
    (mask = true → moves = true →
      buffer.content.length + headerLength n + (keyBytes mask).length + n ≤ size)

theorem toInt_eq {n : Nat} (small : n < 2 ^ 31) : toInt n = n := by
  unfold toInt
  omega

theorem roundTrips_written {buffer filled : SwString} {data : List UInt8} {opcode : Nat}
    (small : opcode < 16) (finish mask : Bool)
    (content : filled.content = buffer.content ++ (frameHeader data.length opcode finish mask ++
      (keyBytes mask ++ if mask then xorKey maskData data else data)))
    (fits : headerLength data.length + (keyBytes mask).length + data.length < 2 ^ 31) :
    RoundTrips buffer data opcode finish (some filled) := by
  obtain ⟨opcode', fin, payload⟩ := decode_written data.length small finish mask
    (if mask then xorKey maskData data else data)
  have count : data.length % 2 ^ 64 = data.length := Nat.mod_eq_of_lt (by omega)
  have body : (if mask then xorKey maskData data else data).length = data.length := by
    split <;> simp only [length_xorKey]
  refine ⟨filled, _, rfl, content, ?_, opcode', fin, payload.trans ?_⟩
  · rw [getPackageLength_eq, rfcLength_written, count]
    simp only
    rw [Nat.mod_eq_of_lt (by omega), toInt_eq fits, length_append, length_append, body,
      length_frameHeader]
    omega
  · rw [count]
    cases mask
    · simp only [Bool.false_eq_true, if_false]
      exact List.take_length
    · simp only [if_true]
      rw [List.take_of_length_le (by rw [length_xorKey]), xorKey_xorKey]

theorem append_all (pagesize : Nat) (str : SwString) (bytes : List UInt8)
    (room : Room str.content.length str.size bytes.length) :
    swStringAppendPtr pagesize str bytes bytes.length =
      some (⟨str.content ++ bytes, grown pagesize str.content.length str.size bytes.length⟩,
        decide (str.size < str.content.length + bytes.length)) :=
  append_some.mpr ⟨Int.natCast_nonneg _, by simpa using room, by simp, by simp⟩

section

variable {pagesize : Nat} {moves : Bool} {buffer : SwString} {data : List UInt8} {opcode : Nat}
  {finish mask : Bool}

theorem roundTrips_of_encodable (small : opcode < 16)
    (encodable : Encodable pagesize moves buffer data.length mask) :
    RoundTrips buffer data opcode finish
      (swWebSocketEncode pagesize moves buffer data opcode finish mask) := by
  have size := length_frameHeader data.length opcode finish mask
  have headed := append_all pagesize buffer
    (frameHeader data.length opcode finish mask) (by rw [size]; exact encodable.header)
  rw [swWebSocketEncode, headed, Option.bind_some]
  by_cases positive : 0 < data.length
  · obtain ⟨room, roomIs, fits, stays⟩ := encodable.data positive
    have narrow : data.length < 2 ^ 31 := by
      have := fits.1
      omega
    have content : (buffer.content ++ frameHeader data.length opcode finish mask).length =
        buffer.content.length + headerLength data.length := by rw [length_append, size]
    simp only [if_pos positive, toInt_eq narrow]
    cases mask with
    | false =>
      have filled := append_all pagesize ⟨buffer.content ++
        frameHeader data.length opcode finish false, room⟩ data
        (by rw [content]; exact fits)
      rw [roomIs, if_neg (by decide)] at filled
      rw [size, if_neg (by decide), filled]
      refine roundTrips_written small finish false ?_ ?_
      · simp [keyBytes]
      · have := fits.1
        omega
    | true =>
      have keyed := append_all pagesize ⟨buffer.content ++
        frameHeader data.length opcode finish true,
        grown pagesize buffer.content.length buffer.size (headerLength data.length)⟩
        maskData (by rw [content]; exact (encodable.key rfl).2)
      have filled := append_all pagesize ⟨buffer.content ++
        frameHeader data.length opcode finish true ++ maskData, room⟩ data
        (by rw [length_append, content]; exact fits)
      have keySize : ((maskData.length : Nat) : Int) = 4 := rfl
      rw [keySize, content] at keyed
      rw [roomIs, if_pos rfl] at filled stays
      have whole : (buffer.content ++ frameHeader data.length opcode finish true ++
          maskData).length = buffer.content.length + headerLength data.length +
            (keyBytes true).length := by
        rw [length_append, content]
        rfl
      have inPlace : (decide (grown pagesize (buffer.content.length + headerLength data.length)
          (grown pagesize buffer.content.length buffer.size (headerLength data.length)) 4 <
            buffer.content.length + headerLength data.length + (keyBytes true).length +
              data.length) && moves) = false := by
        cases moves with
        | false => exact Bool.and_false _
        | true =>
          have := stays rfl rfl
          simp only [Bool.and_true, decide_eq_false_iff_not]
          omega
      rw [size, if_pos rfl, keyed, Option.bind_some]
      dsimp only
      rw [show maskData.length = 4 from rfl, filled, Option.map_some]
      simp only [whole, inPlace, Bool.false_eq_true, if_false]
      rw [List.drop_left' whole]
      refine roundTrips_written small finish true ?_ ?_
      · simp only [keyBytes, if_true, append_assoc]
      · have := fits.1
        omega
  · have empty : data = [] := List.length_eq_zero_iff.mp (by omega)
    have unmasked : mask = false := by
      cases mask with
      | false => rfl
      | true => exact absurd (encodable.key rfl).1 positive
    subst empty unmasked
    exact roundTrips_written small finish false (by simp [keyBytes]) (by decide)

theorem xorKey_take_ne (positive : 0 < data.length) (i j : Nat) :
    xorKey maskData ((data.take i).take j) ≠ data := by
  intro same
  have length := congrArg List.length same
  rw [length_xorKey, length_take, length_take] at length
  rw [List.take_of_length_le (show data.length ≤ i by omega),
    List.take_of_length_le (show data.length ≤ j by omega)] at same
  obtain ⟨byte, rest, rfl⟩ := List.exists_cons_of_length_pos positive
  have head : byte ^^^ 0x32 = byte := by
    simpa [xorKey, maskData] using congrArg List.head? same
  have zero : byte ^^^ (byte ^^^ 0x32) = byte ^^^ byte := congrArg (byte ^^^ ·) head
  rw [← UInt8.xor_assoc, UInt8.xor_self, UInt8.zero_xor] at zero
  exact absurd zero (by decide)

theorem rfcLength_keyless (opcode : Nat) (finish : Bool) :
    rfcLength (frameHeader (@List.length UInt8 []) opcode finish true) = none := by
  obtain ⟨second, k, header, format, key, -, size, -⟩ := frameHeader_eq 0 opcode finish true
  have zero : k = 0 := by
    have : headerLength 0 = 2 := rfl
    omega
  subst zero
  rw [List.length_nil, header, rfcLength, format, key]
  exact if_pos (by decide)

theorem length_payload_le (length : Nat) (small : opcode < 16) (finish mask : Bool)
    (body : List UInt8) : (swWebSocketDecode (frameHeader length opcode finish mask ++
      (keyBytes mask ++ body))).payload.length ≤ body.length := by
  rw [(decode_written length small finish mask body).2.2]
  split
  · rw [length_xorKey, length_take]
    omega
  · rw [length_take]
    omega

theorem toNat_toInt_le (n : Nat) : (toInt n).toNat ≤ n ∧ (0 ≤ toInt n → (toInt n).toNat < 2 ^ 31) := by
  unfold toInt
  split <;> omega

theorem encodable_of_roundTrips (small : opcode < 16) (trips : RoundTrips buffer data opcode finish
      (swWebSocketEncode pagesize moves buffer data opcode finish mask)) :
    Encodable pagesize moves buffer data.length mask := by
  obtain ⟨filled, written, result, content, length, -, -, payload⟩ := trips
  have size := length_frameHeader data.length opcode finish mask
  rw [swWebSocketEncode] at result
  obtain ⟨⟨headed, moved⟩, appended, result⟩ := Option.bind_eq_some_iff.mp result
  obtain ⟨-, header, rfl, -⟩ := append_some.mp appended
  rw [Int.toNat_natCast, size] at header
  rw [Int.toNat_natCast, List.take_length, size] at result
  -- what is written behind the header is at least as long as the payload
  have written_of : ∀ body, filled.content = buffer.content ++
      (frameHeader data.length opcode finish mask ++ (keyBytes mask ++ body)) →
      data.length ≤ body.length ∧ (swWebSocketDecode (frameHeader data.length opcode finish mask ++
        (keyBytes mask ++ body))).payload = data := by
    intro body same
    rw [same] at content
    have same := List.append_cancel_left content
    rw [same]
    refine ⟨?_, payload⟩
    have le := length_payload_le data.length small finish mask body
    rwa [same, payload] at le
  by_cases positive : 0 < data.length
  · simp only [if_pos positive] at result
    cases mask with
    | false =>
      rw [if_neg (by decide)] at result
      obtain ⟨⟨last, moved'⟩, appended', rfl⟩ := Option.map_eq_some_iff.mp result
      obtain ⟨nonneg, fits, rfl, -⟩ := append_some.mp appended'
      obtain ⟨long, -⟩ := written_of (data.take (toInt data.length).toNat) (by
        simp [keyBytes])
      rw [length_take] at long
      have le := (toNat_toInt_le data.length).1
      rw [show (toInt data.length).toNat = data.length by omega, length_append, size] at fits
      exact ⟨header, fun masked => absurd masked (by decide),
        fun _ => ⟨_, (if_neg (by decide)).symm, fits, fun masked => absurd masked (by decide)⟩⟩
    | true =>
      rw [if_pos rfl] at result
      obtain ⟨⟨keyed, moved'⟩, appended', result⟩ := Option.bind_eq_some_iff.mp result
      obtain ⟨-, key, rfl, -⟩ := append_some.mp appended'
      obtain ⟨⟨last, moved''⟩, appended'', result⟩ := Option.map_eq_some_iff.mp result
      obtain ⟨nonneg, fits, rfl, rfl⟩ := append_some.mp appended''
      have whole : (buffer.content ++ frameHeader data.length opcode finish true ++
          maskData.take (4 : Int).toNat).length = buffer.content.length +
            headerLength data.length + (keyBytes true).length := by
        rw [length_append, length_append, size]
        rfl
      simp only [whole] at fits result
      rw [length_append, size] at key fits result
      have le := (toNat_toInt_le data.length).1
      split at result
      · -- the block has moved: the payload stands there as it is
        obtain ⟨-, same⟩ := written_of (data.take (toInt data.length).toNat) (by
          rw [← result]
          simp [keyBytes]
          rfl)
        rw [(decode_written data.length small finish true _).2.2, if_pos rfl] at same
        exact absurd same (xorKey_take_ne positive _ _)
      · rename_i stays
        obtain ⟨long, -⟩ := written_of (xorKey maskData (data.take (toInt data.length).toNat)) (by
          rw [← result, List.drop_left' whole]
          simp [keyBytes]
          rfl)
        rw [length_xorKey, length_take] at long
        have count : (toInt data.length).toNat = data.length := by omega
        rw [count] at fits stays
        refine ⟨header, fun _ => ⟨positive, key⟩, fun _ => ⟨_, (if_pos rfl).symm, fits, ?_⟩⟩
        intro _ moving
        simpa [moving] using stays
  · simp only [if_neg positive, Option.some.injEq] at result
    cases mask with
    | false =>
      exact ⟨header, fun masked => absurd masked (by decide), fun more => absurd more positive⟩
    | true =>
      have empty : data = [] := List.length_eq_zero_iff.mp (by omega)
      subst empty
      rw [← result] at content
      have same := List.append_cancel_left content
      rw [getPackageLength_eq, ← same, rfcLength_keyless, size] at length
      exact absurd length (by decide)

/-- **What `swWebSocket_encode` writes comes back exactly when the parts fit in the buffer
and a payload that is masked is not empty and stays in its block.** -/
theorem roundTrips_iff (pagesize : Nat) (moves : Bool) (buffer : SwString) (data : List UInt8)
    (opcode : Nat) (finish mask : Bool) (small : opcode < 16) : RoundTrips buffer data opcode finish
        (swWebSocketEncode pagesize moves buffer data opcode finish mask) ↔
      Encodable pagesize moves buffer data.length mask :=
  ⟨encodable_of_roundTrips small, roundTrips_of_encodable small⟩

theorem roundTrips_masked :
    RoundTrips ⟨[], 16⟩ [0x61] 1 true (swWebSocketEncode 4096 false ⟨[], 16⟩ [0x61] 1 true true) :=
  (roundTrips_iff 4096 false ⟨[], 16⟩ [0x61] 1 true true (by decide)).mpr
    { header := ⟨by decide, by decide⟩
      key := fun _ => ⟨by decide, by decide, by decide⟩
      data := fun _ => ⟨_, rfl, ⟨by decide, by decide⟩, by decide⟩ }

/-- A masked frame without a payload is not complete without its key; and a payload
appended to a block that moves is not masked. -/
theorem not_roundTrips_empty :
    ¬ RoundTrips ⟨[], 16⟩ [] 1 true (swWebSocketEncode 4096 false ⟨[], 16⟩ [] 1 true true) ∧
      ¬ RoundTrips ⟨[], 6⟩ [0x61] 1 true (swWebSocketEncode 4096 true ⟨[], 6⟩ [0x61] 1 true true) := by
  constructor
  · intro trips
    exact absurd (encodable_of_roundTrips (by decide) trips |>.key rfl).1 (by decide)
  · intro trips
    obtain ⟨size, sizeIs, -, stays⟩ := (encodable_of_roundTrips (by decide) trips).data (by decide)
    have := stays rfl rfl
    rw [sizeIs] at this
    exact absurd this (by decide)

end

end PhpExts.Swoole.WebSocket
