import PhpExts.Swoole.SerializeFilter
import Mathlib

/-!
# Unpacking what has been packed

`swoole_unserialize_arr` reads an array out of a stream: for each entry its type, with the classes
of the key and of the value, and then these, where a string can be a reference to where the whole
stream has it. The types are patched when the value is known, after the key.

An array comes back with its keys and values in their order if every step of the packing meets the
condition under which references name their strings (`unserialize_serialize`).
-/

namespace PhpExts.Swoole.Serialize

open List (append_assoc append_nil length_append length_drop length_modify)
open Option (bind_eq_bind bind_some map_some)

inductive Key where
  | index (h : UInt64)
  | string (zstr : Bytes)
  deriving DecidableEq

mutual

inductive Zval where
  | null
  | bool (value : Bool)
  | long (value : Int64)
  | double (bits : UInt64)
  | string (zstr : Bytes)
  | array (buckets : Buckets)

inductive Buckets where
  | nil
  | cons (key : Key) (val : Zval) (rest : Buckets)

end

def leNat : Bytes → Nat
  | [] => 0
  | byte :: bytes => byte.toNat + 256 * leNat bytes

def readLe (count : Nat) (buffer : Bytes) : Option (Nat × Bytes) :=
  if buffer.length < count then none else some (leNat (buffer.take count), buffer.drop count)

/-- `zend_string_init`. -/
def readBytes (length : Nat) (buffer : Bytes) : Option (Bytes × Bytes) :=
  if buffer.length < length then none else some (buffer.take length, buffer.drop length)

section

variable (type : UInt8)

def keyType : Nat := type.toNat % 2

def keyLen : Nat := type.toNat / 2 % 4

def dataLen : Nat := type.toNat / 8 % 4

def dataType : Nat := type.toNat / 32

end

def lengthWidth (byte : Nat) : Nat := if byte = 1 then 1 else if byte = 2 then 2 else 8

/-- `swoole_unserialize_long`: a number of one, two, four or eight bytes, with its sign. -/
def unserializeLong (dataLen : Nat) (buffer : Bytes) : Option (Int64 × Bytes) :=
  let width := if dataLen = 0 then 1 else if dataLen = 1 then 2 else if dataLen = 2 then 4 else 8
  (readLe width buffer).map fun (number, buffer) =>
    (Int64.ofInt ((number : Int).bmod (2 ^ (8 * width))), buffer)

def getArrayRealLen (buffer : Bytes) (dataLen : Nat) : Option (Nat × Bytes) :=
  readLe (if dataLen = 1 then 1 else if dataLen = 2 then 2 else 4) buffer

section

variable (whole : Bytes)

/-- `get_pack_string_len_addr`, with the string that is there. -/
def getPackString (buffer : Bytes) : Option (Bytes × Bytes) := do
  let overhead ← buffer.head?
  let (offset, buffer) ← readLe (if overhead.toNat &&& 4 ≠ 0 then 4 else 2) buffer
  let (length, addr) ← readLe (lengthWidth (overhead.toNat &&& 3)) (whole.drop (offset >>> 3))
  let (zstr, _) ← readBytes length addr
  some (zstr, buffer)

def readString (byte : Nat) (buffer : Bytes) : Option (Bytes × Bytes) :=
  if byte = 3 then getPackString whole buffer
  else do
    let (length, buffer) ← readLe (lengthWidth byte) buffer
    readBytes length buffer

def readKey (type : UInt8) (idx : Nat) (buffer : Bytes) : Option (Key × Bytes) :=
  if keyType type = 1 then
    (readString whole (keyLen type) buffer).map fun (zstr, buffer) => (.string zstr, buffer)
  else if keyLen type = 0 then some (.index (UInt64.ofNat idx), buffer)
  else
    (readLe (lengthWidth (keyLen type)) buffer).map fun (h, buffer) =>
      (.index (UInt64.ofNat h), buffer)

def readData (elements : Nat → Bytes → Option (Buckets × Bytes)) (type : UInt8) (buffer : Bytes) :
    Option (Zval × Bytes) :=
  match dataType type with
  | 1 => some (.null, buffer)
  | 2 => some (.bool false, buffer)
  | 3 => some (.bool true, buffer)
  | 4 => (unserializeLong (dataLen type) buffer).map fun (value, buffer) => (.long value, buffer)
  | 5 => (readLe 8 buffer).map fun (bits, buffer) => (.double (UInt64.ofNat bits), buffer)
  | 6 =>
    (readString whole (dataLen type) buffer).map fun (zstr, buffer) => (.string zstr, buffer)
  | 7 => do
      let (num, buffer) ← getArrayRealLen buffer (dataLen type)
      let (buckets, buffer) ← elements num buffer
      some (.array buckets, buffer)
  | _ => none

def readBuckets : Nat → Nat → Nat → Bytes → Option (Buckets × Bytes)
  | 0, _, _, _ => none
  | _, _, 0, buffer => some (.nil, buffer)
  | _, _, _ + 1, [] => none
  | fuel + 1, idx, left + 1, type :: buffer => do
      let (key, buffer) ← readKey whole type idx buffer
      let (val, buffer) ← readData whole
        (fun num buffer => if 2 ^ 31 ≤ num then none else readBuckets fuel 0 num buffer) type buffer
      let (rest, buffer) ← readBuckets fuel (idx + 1) left buffer
      some (.cons key val rest, buffer)

/-- `swoole_unserialize_arr`; `cp_zend_hash_check_size` refuses a size. -/
def swooleUnserializeArr (fuel nNumOfElements : Nat) (buffer : Bytes) : Option (Buckets × Bytes) :=
  if 2 ^ 31 ≤ nNumOfElements then none else readBuckets whole fuel 0 nNumOfElements buffer

end

/-- `php_swoole_unserialize`, without objects. -/
def phpSwooleUnserialize : Bytes → Option Zval
  | [] => none
  | type :: buffer =>
    match dataType type with
    | 1 => some .null
    | 2 => some (.bool false)
    | 3 => some (.bool true)
    | 4 => (unserializeLong (dataLen type) buffer).map fun (value, _) => .long value
    | 5 => (readLe 8 buffer).map fun (bits, _) => .double (UInt64.ofNat bits)
    | 6 => some (.string buffer)
    | 7 =>
      if (type :: buffer).drop (buffer.length + 1 - 3) ≠ seriEof then none
      else do
        let whole := type :: buffer
        let (num, buffer) ← getArrayRealLen buffer (dataLen type)
        let (buckets, _) ← swooleUnserializeArr whole (whole.length + 1) num buffer
        some (.array buckets)
    | _ => none

/-! ## What is to come back -/

mutual

def Value.Plain : Value → Prop
  | .null | .bool _ | .long _ | .double _ | .string _ => True
  | .array _ _ elems => elems.Plain
  | .object _ _ _ _ _ => False

def Elems.Plain : Elems → Prop
  | .nil => True
  | .index _ data rest => data.Plain ∧ rest.Plain
  | .key _ data rest => data.Plain ∧ rest.Plain

end

def Elems.Ascends (nextFree : Nat) : Nat → Elems → Prop
  | low, .nil => low ≤ nextFree
  | low, .index h _ rest => low ≤ h.toNat ∧ rest.Ascends nextFree (h.toNat + 1)
  | _, .key _ _ _ => False

mutual

def Value.Ordered : Value → Prop
  | .null | .bool _ | .long _ | .double _ | .string _ => True
  | .array packed nextFree elems => (packed = true → elems.Ascends nextFree 0) ∧ elems.Ordered
  | .object _ _ _ _ _ => True

def Elems.Ordered : Elems → Prop
  | .nil => True
  | .index _ data rest => data.Ordered ∧ rest.Ordered
  | .key _ data rest => data.Ordered ∧ rest.Ordered

end

mutual

def Value.zval : Value → Zval
  | .null => .null
  | .bool value => .bool value
  | .long value => .long value
  | .double bits => .double bits
  | .string zstr => .string zstr
  | .array _ _ elems => .array elems.buckets
  | .object _ _ _ _ _ => .null

def Elems.buckets : Elems → Buckets
  | .nil => .nil
  | .index h data rest => .cons (.index h) data.zval rest.buckets
  | .key zstr data rest => .cons (.string zstr) data.zval rest.buckets

end

/-! ## Numbers and types -/

section

variable {count number : Nat} {rest : Bytes}

theorem leBytes_length (count number : Nat) : (leBytes count number).length = count := by
  induction count generalizing number with
  | zero => rfl
  | succ count ih => rw [leBytes, List.length_cons, ih]

theorem leNat_leBytes (small : number < 256 ^ count) : leNat (leBytes count number) = number := by
  induction count generalizing number with
  | zero =>
    rw [Nat.pow_zero] at small
    exact (Nat.lt_one_iff.1 small).symm
  | succ count ih =>
    have small' : number / 256 < 256 ^ count := by
      rw [Nat.div_lt_iff_lt_mul (by decide), ← Nat.pow_succ]
      exact small
    rw [leBytes, leNat, ih small', UInt8.toNat_ofNat']
    omega

theorem readLe_leBytes (small : number < 256 ^ count) :
    readLe count (leBytes count number ++ rest) = some (number, rest) := by
  have length := leBytes_length count number
  rw [readLe, if_neg (by rw [length_append, length]; omega), List.take_left' length,
    List.drop_left' length, leNat_leBytes small]

theorem readBytes_append (zstr : Bytes) :
    readBytes zstr.length (zstr ++ rest) = some (zstr, rest) := by
  rw [readBytes, if_neg (by rw [length_append]; omega), List.take_left, List.drop_left]

end

section

variable {key len data type : Nat}

theorem bucketType_toNat (keySmall : key < 2) (lenSmall : len < 4) (dataSmall : data < 4)
    (typeSmall : type < 8) :
    (bucketType key len data type).toNat = key + 2 * len + 8 * data + 32 * type := by
  rw [bucketType, UInt8.toNat_ofNat']
  omega

theorem setDataLen_toNat (byte : UInt8) (dataSmall : data < 4) :
    (setDataLen byte data).toNat = byte.toNat % 8 + 8 * data + 32 * (byte.toNat / 32) := by
  have := byte.toNat_lt
  rw [setDataLen, UInt8.toNat_ofNat']
  omega

structure Keeps (patch : UInt8 → UInt8) : Prop where
  keyType : ∀ byte, keyType (patch byte) = keyType byte
  keyLen : ∀ byte, keyLen (patch byte) = keyLen byte
  dataType : ∀ byte, dataType (patch byte) = dataType byte

theorem keeps_id : Keeps id := ⟨fun _ => rfl, fun _ => rfl, fun _ => rfl⟩

theorem keeps_setDataLen (dataSmall : data < 4) : Keeps fun byte => setDataLen byte data := by
  refine ⟨fun byte => ?_, fun byte => ?_, fun byte => ?_⟩
  · rw [keyType, keyType, setDataLen_toNat byte dataSmall]
    omega
  · rw [keyLen, keyLen, setDataLen_toNat byte dataSmall]
    omega
  · have := byte.toNat_lt
    rw [dataType, dataType, setDataLen_toNat byte dataSmall]
    omega

theorem dataLen_setDataLen (byte : UInt8) (dataSmall : data < 4) :
    dataLen (setDataLen byte data) = data := by
  rw [dataLen, setDataLen_toNat byte dataSmall]
  omega

end

/-! ## What a part of a stream comes to -/

def Stream.Within (stream : Stream) (whole : Bytes) : Prop :=
  ∀ i, i < stream.out.length → i ∉ stream.types → whole[i]? = stream.out[i]?

section

variable {stream : Stream} {whole : Bytes}

theorem Stream.Within.drop {front text back : Bytes} (within : stream.Within whole)
    (out : stream.out = front ++ text ++ back)
    (apart : ∀ p ∈ stream.types, p < front.length ∨ front.length + text.length ≤ p) :
    whole.drop front.length = text ++ whole.drop (front.length + text.length) := by
  have taken : (whole.drop front.length).take text.length = text := by
    refine List.ext_getElem? fun i => ?_
    rw [List.getElem?_take, List.getElem?_drop]
    by_cases inside : i < text.length
    · have open' : front.length + i ∉ stream.types := fun isIn => by
        have := apart _ isIn
        omega
      rw [if_pos inside, within _ (by simp only [out, length_append]; omega) open', out,
        append_assoc, List.getElem?_append_right (Nat.le_add_right _ _),
        Nat.add_sub_cancel_left, List.getElem?_append_left inside]
    · rw [if_neg inside, List.getElem?_eq_none (Nat.not_lt.1 inside)]
  have whole' := List.take_append_drop text.length (whole.drop front.length)
  rw [taken, List.drop_drop] at whole'
  exact whole'.symm

end

theorem and_three (x : Nat) : x &&& 3 = x % 4 := Nat.and_two_pow_sub_one_eq_mod x 2

theorem and_four (x : Nat) : x &&& 4 = x / 4 % 2 * 4 := by
  have upper : (x &&& 4) / 4 = x / 4 % 2 := by
    rw [Nat.and_div_two_pow (n := 2), ← Nat.and_one_is_mod]
  have lower : (x &&& 4) % 4 = 0 := by
    rw [Nat.and_mod_two_pow (n := 2)]
    exact Nat.and_zero _
  omega

structure Small (entry : Poolstr) : Prop where
  large : entry.offset < 2 ^ 32
  small : entry.offset &&& 4 = 0 → entry.offset < 2 ^ 16

theorem small_added (zstr : Bytes) {offset : Nat} (small : offset < 0x1fffffff) :
    Small (added zstr offset (offsetByte zstr)) := by
  have value : (added zstr offset (offsetByte zstr)).offset =
      offset * 8 + offsetByte zstr + (if offset ≤ 0x1fff then 0 else 4) := by
    obtain ⟨byte, isByte, same⟩ : ∃ byte, (byte = 1 ∨ byte = 2 ∨ byte = 3) ∧
        offsetByte zstr = byte := by
      rcases offsetByte_class zstr with ⟨one, -⟩ | ⟨two, -⟩ | three
      · exact ⟨1, .inl rfl, one⟩
      · exact ⟨2, .inr (.inl rfl), two⟩
      · exact ⟨3, .inr (.inr rfl), three⟩
    rw [added, same]
    rcases isByte with rfl | rfl | rfl
    all_goals
      split
      · rw [← Nat.shiftLeft_add_eq_or_of_lt (by decide), Nat.shiftLeft_eq]
      · rw [← Nat.shiftLeft_add_eq_or_of_lt (by decide), Nat.shiftLeft_eq]
        rfl
  have byte : offsetByte zstr ≤ 3 := by
    rcases offsetByte_class zstr with ⟨same, -⟩ | ⟨same, -⟩ | same <;> omega
  refine ⟨?_, fun unmarked => ?_⟩
  · rw [value]
    split <;> omega
  · rw [and_four, value] at unmarked
    rw [value]
    split
    · omega
    · next large =>
        rw [if_neg large] at unmarked
        omega

section

variable {stream : Stream} {whole rest zstr : Bytes}

theorem readLe_lengthBytes {byte : Nat}
    (isClass : (byte = 1 ∧ zstr.length ≤ 0xff) ∨ (byte = 2 ∧ zstr.length ≤ 0xffff) ∨ byte = 3)
    (small : zstr.length < 2 ^ 64) :
    readLe (lengthWidth byte) (lengthBytes byte zstr ++ rest) = some (zstr.length, rest) := by
  rcases isClass with ⟨rfl, fits⟩ | ⟨rfl, fits⟩ | rfl
  · exact @readLe_leBytes 1 _ _ (by omega)
  · exact @readLe_leBytes 2 _ _ (by omega)
  · exact @readLe_leBytes 8 _ _ (by omega)

theorem lengthClass_lt (zstr : Bytes) : lengthClass zstr < 3 := by
  unfold lengthClass
  split
  · decide
  · split <;> decide

theorem readString_fresh (small : zstr.length < 2 ^ 64) :
    readString whole (lengthClass zstr) (lengthBytes (offsetByte zstr) zstr ++ zstr ++ rest) =
      some (zstr, rest) := by
  have notSame : lengthClass zstr ≠ 3 := Nat.ne_of_lt (lengthClass_lt zstr)
  have width : lengthWidth (lengthClass zstr) = lengthWidth (offsetByte zstr) := by
    unfold lengthClass offsetByte
    split
    · rfl
    · split <;> rfl
  rw [readString, if_neg notSame, width, append_assoc,
    readLe_lengthBytes (offsetByte_class zstr) small]
  exact readBytes_append zstr

theorem readString_refer {offset : Nat} (names : Names stream ⟨zstr, offset⟩)
    (small : Small ⟨zstr, offset⟩) (within : stream.Within whole) (room : whole.length < 2 ^ 31) :
    readString whole 3 ((if offset &&& 4 ≠ 0 then leBytes 4 offset else leBytes 2 offset) ++ rest) =
        some (zstr, rest) := by
  obtain ⟨⟨front, back, out, length, apart⟩, isClass⟩ := names
  have text := within.drop out apart
  have short : zstr.length < 2 ^ 64 := by
    have := congrArg List.length text
    simp only [length_drop, length_append] at this
    omega
  have low : UInt8.toNat (UInt8.ofNat offset) = offset % 256 := UInt8.toNat_ofNat'
  have mark : (offset % 256) &&& 4 = offset &&& 4 := by
    rw [and_four, and_four]
    omega
  have byte : (offset % 256) &&& 3 = offset &&& 3 := by
    rw [and_three, and_three]
    omega
  have head : ((if offset &&& 4 ≠ 0 then leBytes 4 offset else leBytes 2 offset) ++ rest).head? =
      some (UInt8.ofNat offset) := by
    split <;> rfl
  have number : readLe (if offset &&& 4 ≠ 0 then 4 else 2)
      ((if offset &&& 4 ≠ 0 then leBytes 4 offset else leBytes 2 offset) ++ rest) =
        some (offset, rest) := by
    by_cases marked : offset &&& 4 ≠ 0
    · rw [if_pos marked, if_pos marked]
      exact readLe_leBytes small.large
    · rw [if_neg marked, if_neg marked]
      exact readLe_leBytes (small.small (not_not.1 marked))
  rw [readString, if_pos rfl, getPackString, head]
  simp only [bind_eq_bind, bind_some, low, mark, byte, number, ← length, text,
    append_assoc, readLe_lengthBytes isClass short, readBytes_append]

end

/-! ## Numbers of entries -/

theorem bmod_mod {x : Int} {width : Nat} (isWidth : width = 1 ∨ width = 2 ∨ width = 4 ∨ width = 8)
    (low : -2 ^ (8 * width - 1) ≤ x) (high : x < 2 ^ (8 * width - 1)) :
    (((x % 2 ^ (8 * width)).toNat : Nat) : Int).bmod (2 ^ (8 * width)) = x := by
  rcases isWidth with rfl | rfl | rfl | rfl
  all_goals
    simp only [Nat.reduceMul, Nat.reduceSub, Nat.reducePow, Int.reducePow] at low high ⊢
    rw [Int.bmod_def]
    split <;> omega

theorem longActions_spec (value : Int64) : ∃ length bytes, length < 4 ∧
    longActions value.toInt = [.dataLen length, .raw bytes] ∧
    ∀ rest, unserializeLong length (bytes ++ rest) = some (value, rest) := by
  have low := value.le_toInt
  have high := value.toInt_lt
  have reads (length width : Nat) (isWidth : width = 1 ∨ width = 2 ∨ width = 4 ∨ width = 8)
      (same : (if length = 0 then 1 else if length = 1 then 2 else if length = 2 then 4 else 8) =
        width) (low : -2 ^ (8 * width - 1) ≤ value.toInt)
      (high : value.toInt < 2 ^ (8 * width - 1)) (rest : Bytes) :
      unserializeLong length (leBytes width (value.toInt % 2 ^ (8 * width)).toNat ++ rest) =
        some (value, rest) := by
    have small : (value.toInt % 2 ^ (8 * width)).toNat < 256 ^ width := by
      rcases isWidth with rfl | rfl | rfl | rfl
      all_goals
        simp only [Nat.reduceMul, Nat.reducePow, Int.reducePow]
        omega
    rw [unserializeLong, same]
    simp only [readLe_leBytes small, map_some, bmod_mod isWidth low high, Int64.ofInt_toInt]
  unfold longActions
  split
  · exact ⟨0, _, by decide, rfl, reads 0 1 (by decide) rfl (by omega) (by omega)⟩
  split
  · exact ⟨1, _, by decide, rfl, reads 1 2 (by decide) rfl (by omega) (by omega)⟩
  split
  · exact ⟨2, _, by decide, rfl, reads 2 4 (by decide) rfl (by omega) (by omega)⟩
  · exact ⟨3, _, by decide, rfl, reads 3 8 (by decide) rfl (by omega) (by omega)⟩

theorem arrayTypeActions_spec (count : Nat) : ∃ length bytes, length < 4 ∧
    arrayTypeActions count = [.dataLen length, .raw bytes] ∧
    (count < 2 ^ 32 → ∀ rest, getArrayRealLen (bytes ++ rest) length = some (count, rest)) := by
  unfold arrayTypeActions
  split
  · exact ⟨1, _, by decide, rfl, fun _ rest => @readLe_leBytes 1 _ _ (by omega)⟩
  split
  · exact ⟨2, _, by decide, rfl, fun _ rest => @readLe_leBytes 2 _ _ (by omega)⟩
  · exact ⟨0, _, by decide, rfl, fun small rest => @readLe_leBytes 4 _ _ (by omega)⟩

theorem indexAction_spec (index : UInt64) (type : Nat) : ∃ len bytes, len < 4 ∧ len ≠ 0 ∧
    indexAction index type = .index len bytes type ∧
    ∀ rest, readLe (lengthWidth len) (bytes ++ rest) = some (index.toNat, rest) := by
  have := index.toNat_lt
  unfold indexAction
  split
  · exact ⟨1, _, by decide, by decide, rfl, fun rest => @readLe_leBytes 1 _ _ (by omega)⟩
  split
  · exact ⟨2, _, by decide, by decide, rfl, fun rest => @readLe_leBytes 2 _ _ (by omega)⟩
  · exact ⟨3, _, by decide, by decide, rfl, fun rest => @readLe_leBytes 8 _ _ (by omega)⟩

section

variable {hash : Bytes → UInt64} {behind : Bytes → Bytes}

theorem run_append (first second : List Action) (s : State) :
    run hash behind (first ++ second) s = run hash behind second (run hash behind first s) :=
  List.foldl_append

theorem clean_append {first second : List Action} {s : State} :
    Clean hash behind (first ++ second) s ↔
      Clean hash behind first s ∧ Clean hash behind second (run hash behind first s) := by
  induction first generalizing s with
  | nil => exact ⟨fun clean => ⟨trivial, clean⟩, fun clean => clean.2⟩
  | cons action first ih =>
    refine ⟨fun clean => ?_, fun clean => ⟨clean.1.1, ih.2 ⟨clean.1.2, clean.2⟩⟩⟩
    have behind' := ih.1 clean.2
    exact ⟨⟨clean.1, behind'.1⟩, behind'.2⟩

theorem writeKey_small {zstr : Bytes} {type : Nat} {stream : Stream} {g : Filter}
    (small : g.Each Small) : (writeKey hash behind zstr type stream g).2.Each Small := by
  have found := (@miniFilterFind_spec Small g hash zstr small).1
  rw [writeKey]
  rcases isFound : miniFilterFind hash zstr g with ⟨_ | entry, g'⟩
  · rw [isFound] at found
    dsimp only
    split
    · exact miniFilterAdd_each found (small_added zstr)
    · exact miniFilterAdd_each found (small_added zstr)
  · rw [isFound] at found
    exact found

theorem writeValue_small {zstr : Bytes} {stream : Stream} {g : Filter} (small : g.Each Small) :
    (writeValue hash zstr stream g).2.Each Small := by
  have found := (@miniFilterFind_spec Small g hash zstr small).1
  rw [writeValue]
  rcases isFound : miniFilterFind hash zstr g with ⟨_ | entry, g'⟩
  · rw [isFound] at found
    exact miniFilterAdd_each found (small_added zstr)
  · rw [isFound] at found
    exact found

theorem step_small {s : State} (small : s.filter.Each Small) (action : Action) :
    (step hash behind s action).filter.Each Small := by
  obtain ⟨streams, done, g⟩ := s
  cases action with
  | begin fast scalar type => exact ⟨small.mini, small.bigger⟩
  | raw | index | dataLen | close =>
    cases streams with
    | nil => exact small
    | cons => exact small
  | key zstr type =>
    cases streams with
    | nil => exact small
    | cons stream outer =>
      simp only [step]
      split
      · exact small
      · exact writeKey_small small
  | value zstr =>
    cases streams with
    | nil => exact small
    | cons stream outer =>
      simp only [step]
      split
      · exact small
      · exact writeValue_small small
  | finish =>
    cases streams with
    | nil => exact small
    | cons stream outer =>
      simp only [step]
      split
      · exact small
      · rw [miniFilterClear]
        split
        · exact Filter.each_init true
        · exact small

theorem run_small {actions : List Action} {s : State} (small : s.filter.Each Small) :
    (run hash behind actions s).filter.Each Small := by
  induction actions generalizing s with
  | nil => exact small
  | cons action actions ih => exact ih (step_small small action)

end

/-! ## One value, and the entries of an array -/

section

variable {stream : Stream} {whole : Bytes}

theorem Stream.Within.patch {length : Nat} (within : (stream.patch length).Within whole) :
    stream.Within whole := by
  intro i inside complete
  have := within i (by rwa [stream.length_patch]) (by rwa [(stream.patch_fields length).1])
  rw [this, Stream.patch]
  split
  · rfl
  · next p ts types =>
      rw [types, List.mem_cons, not_or] at complete
      exact List.getElem?_modify_ne _ _ (Ne.symm complete.1)

theorem Stream.Within.front {stream' : Stream} {new : Bytes} (within : stream'.Within whole)
    (out : stream'.out = stream.out ++ new) (types : stream'.types = stream.types) :
    stream.Within whole := by
  intro i inside complete
  have := within i (by rw [out, length_append]; omega) (by rwa [types])
  rwa [out, List.getElem?_append_left inside] at this

theorem Stream.Within.tail {front new : Bytes} (within : stream.Within whole)
    (out : stream.out = front ++ new) (types : ∀ p ∈ stream.types, p < front.length) :
    whole.drop front.length = new ++ whole.drop stream.out.length := by
  have all : stream.out = front ++ new ++ [] := by
    rw [append_nil]
    exact out
  have := within.drop all fun p isIn => .inl (types p isIn)
  rwa [← length_append, ← out] at this

structure KeyRead (isAt : Nat → Prop) (key : Key) (type : Nat) (stream stream' : Stream) :
    Prop where
  text : ∃ byte bytes, stream'.out = stream.out ++ byte :: bytes ∧ dataType byte = type ∧
    ∀ whole : Bytes, whole.length < 2 ^ 31 → stream.Within whole → ∀ idx, isAt idx →
      ∀ byte' rest, keyType byte' = keyType byte → keyLen byte' = keyLen byte →
        readKey whole byte' idx (bytes ++ rest) = some (key, rest)
  types : stream'.types = stream.out.length :: stream.types
  scalar : stream'.scalar = stream.scalar

structure ValueRead (val : Zval) (type p : Nat) (stream stream' : Stream) : Prop where
  text : ∃ patch new, Keeps patch ∧ stream'.out = stream.out.modify p patch ++ new ∧
    ∀ whole : Bytes, whole.length < 2 ^ 31 → stream'.Within whole → ∀ byte, dataType byte = type →
      ∀ fuel, (whole.drop stream.out.length).length < fuel →
        readData whole
          (fun num buffer => if 2 ^ 31 ≤ num then none else readBuckets whole fuel 0 num buffer)
          (patch byte) (whole.drop stream.out.length) = some (val, whole.drop stream'.out.length)
  types : stream'.types = stream.types
  scalar : stream'.scalar = stream.scalar

structure ElemsRead (isAt : Nat → Prop) (count : Nat) (buckets : Buckets)
    (stream stream' : Stream) : Prop where
  text : ∃ new, stream'.out = stream.out ++ new ∧ count ≤ new.length ∧
    ∀ whole : Bytes, whole.length < 2 ^ 31 → stream'.Within whole → ∀ idx, isAt idx →
      ∀ fuel, (whole.drop stream.out.length).length < fuel →
        readBuckets whole fuel idx count (whole.drop stream.out.length) =
          some (buckets, whole.drop stream'.out.length)
  types : stream'.types = stream.types
  scalar : stream'.scalar = stream.scalar

def Stream.close (stream : Stream) : Stream := { stream with types := stream.types.tail }

theorem elemsRead_nil (isAt : Nat → Prop) : ElemsRead isAt 0 .nil stream stream := by
  refine ⟨⟨[], (append_nil _).symm, Nat.le_refl _, fun whole _ _ idx _ fuel enough => ?_⟩,
    rfl, rfl⟩
  obtain ⟨fuel, rfl⟩ := Nat.exists_eq_add_of_le' (Nat.zero_lt_of_lt enough)
  rw [readBuckets]
  simp

theorem elemsRead_cons {isAt isKey isRest : Nat → Prop} {key : Key} {val : Zval} {buckets : Buckets}
    {type count : Nat} {first second last : Stream}
    (types : ∀ q ∈ stream.types, q < stream.out.length)
    (keyRead : KeyRead isKey key type stream first)
    (valueRead : ValueRead val type stream.out.length first second)
    (rest : ElemsRead isRest count buckets second.close last)
    (places : ∀ idx, isAt idx → isKey idx ∧ isRest (idx + 1)) :
    ElemsRead isAt (count + 1) (.cons key val buckets) stream last := by
  obtain ⟨byte, bytes, outFirst, isType, readsKey⟩ := keyRead.text
  obtain ⟨patch, new, keeps, outSecond, readsVal⟩ := valueRead.text
  obtain ⟨others, outLast, atLeast, readsRest⟩ := rest.text
  have outSecond' : second.out = stream.out ++ (patch byte :: bytes) ++ new := by
    rw [outSecond, outFirst, modify_append_right _ (Nat.le_refl _), Nat.sub_self,
      List.modify_zero_cons]
  have outClose : second.close.out = second.out := rfl
  have typesClose : second.close.types = stream.types := by
    rw [Stream.close, valueRead.types, keyRead.types]
    rfl
  have lengths : stream.out.length + (patch byte :: bytes).length = first.out.length := by
    rw [outFirst, length_append]
    rfl
  have longer : first.out.length ≤ second.out.length := by
    rw [outSecond', length_append, length_append, lengths]
    exact Nat.le_add_right _ _
  refine ⟨⟨patch byte :: bytes ++ (new ++ others), ?_, ?_, fun whole room within idx isAtIdx fuel
    enough => ?_⟩, rest.types.trans typesClose, ?_⟩
  · rw [outLast, outClose, outSecond']
    simp only [append_assoc]
  · simp only [length_append, List.length_cons]
    omega
  · have withinClose : second.close.Within whole := within.front outLast rest.types
    have withinSecond : second.Within whole := fun i inside complete =>
      withinClose i inside fun isIn => complete (List.mem_of_mem_tail isIn)
    have outStream : second.close.out = stream.out ++ (patch byte :: bytes ++ new) := by
      rw [outClose, outSecond', append_assoc]
    have withinStream : stream.Within whole := withinClose.front outStream typesClose
    have front : whole.drop stream.out.length =
        patch byte :: bytes ++ whole.drop first.out.length := by
      rw [← lengths]
      exact withinClose.drop (outClose.trans outSecond') fun q isIn =>
        .inl (types q (typesClose ▸ isIn))
    obtain ⟨isKeyIdx, isRestIdx⟩ := places idx isAtIdx
    obtain ⟨fuel, rfl⟩ := Nat.exists_eq_add_of_le' (Nat.zero_lt_of_lt enough)
    rw [front, length_append, List.length_cons] at enough
    have enoughVal : (whole.drop first.out.length).length < fuel := by omega
    have enoughRest : (whole.drop second.close.out.length).length < fuel := by
      rw [outClose]
      rw [length_drop] at enoughVal ⊢
      omega
    rw [front, List.cons_append, readBuckets,
      readsKey whole room withinStream idx isKeyIdx (patch byte) _ (keeps.keyType byte)
        (keeps.keyLen byte)]
    simp only [bind_eq_bind, bind_some]
    rw [readsVal whole room withinSecond byte isType fuel enoughVal]
    simp only [bind_some]
    rw [← outClose, readsRest whole room within (idx + 1) isRestIdx fuel enoughRest]
    rfl
  · rw [rest.scalar, Stream.close, valueRead.scalar, keyRead.scalar]

end

section

variable {hash : Bytes → UInt64} {behind : Bytes → Bytes} {stream : Stream} {g : Filter}

theorem keyRead_index {isAt : Nat → Prop} {len : Nat} {bytes : Bytes} {h : UInt64} {type : Nat}
    (lenSmall : len < 4) (typeSmall : type < 8)
    (reads : (∀ idx, isAt idx → h.toNat = idx) ∧ len = 0 ∧ bytes = [] ∨
      len ≠ 0 ∧ ∀ rest, readLe (lengthWidth len) (bytes ++ rest) = some (h.toNat, rest)) :
    KeyRead isAt (.index h) type stream
      ((stream.entry (bucketType 0 len 0 type)).append bytes) := by
  have byte : (bucketType 0 len 0 type).toNat = 0 + 2 * len + 8 * 0 + 32 * type :=
    bucketType_toNat (by decide) lenSmall (by decide) typeSmall
  refine ⟨⟨bucketType 0 len 0 type, bytes, ?_, ?_,
    fun whole _ _ idx isAtIdx byte' rest isKey isLen => ?_⟩, rfl, rfl⟩
  · rw [Stream.append, Stream.entry, append_assoc]
    rfl
  · rw [dataType, byte]
    omega
  · have notString : keyType byte' ≠ 1 := by
      rw [isKey, keyType, byte]
      omega
    have sameLen : keyLen byte' = len := by
      rw [isLen, keyLen, byte]
      omega
    rw [readKey, if_neg notString, sameLen]
    rcases reads with ⟨place, rfl, rfl⟩ | ⟨some, reads⟩
    · rw [if_pos rfl, ← place idx isAtIdx, UInt64.ofNat_toNat, List.nil_append]
    · rw [if_neg some, reads]
      simp only [map_some, UInt64.ofNat_toNat]

theorem keyRead_none {key : Key} {type : Nat} (typeSmall : type < 8) :
    KeyRead (fun _ => False) key type stream
      ((stream.entry (bucketType 0 0 0 type)).append []) := by
  refine ⟨⟨bucketType 0 0 0 type, [], ?_, ?_, fun _ _ _ _ none => none.elim⟩, rfl, rfl⟩
  · rw [Stream.append, Stream.entry, append_nil]
  · rw [dataType, bucketType_toNat (by decide) (by decide) (by decide) typeSmall]
    omega

theorem found_spec {zstr : Bytes} (each : g.Each (Names stream)) (small : g.Each Small)
    {entry : Poolstr} (found : (miniFilterFind hash zstr g).1 = some entry) :
    Names stream ⟨zstr, entry.offset⟩ ∧ Small ⟨zstr, entry.offset⟩ := by
  obtain ⟨names, same, -⟩ := (miniFilterFind_spec each).2.2.2 entry found
  obtain ⟨fits, -, -⟩ := (miniFilterFind_spec small).2.2.2 entry found
  rw [← same]
  exact ⟨names, fits.large, fits.small⟩

theorem keyRead_string {isAt : Nat → Prop} {zstr : Bytes} {type : Nat} (typeSmall : type < 8)
    (each : g.Each (Names stream)) (small : g.Each Small)
    (short : zstr.length ≤ 0xffff ∨ (miniFilterFind hash zstr g).1 ≠ none) :
    KeyRead isAt (.string zstr) type stream (writeKey hash behind zstr type stream g).1 := by
  have byteOf (len : Nat) (lenSmall : len < 4) :
      (bucketType 1 len 0 type).toNat = 1 + 2 * len + 8 * 0 + 32 * type :=
    bucketType_toNat (by decide) lenSmall (by decide) typeSmall
  have reads (len : Nat) (lenSmall : len < 4) {whole : Bytes} {idx : Nat} {byte' : UInt8}
      {buffer rest : Bytes} (isKey : keyType byte' = keyType (bucketType 1 len 0 type))
      (isLen : keyLen byte' = keyLen (bucketType 1 len 0 type))
      (text : readString whole len buffer = some (zstr, rest)) :
      readKey whole byte' idx buffer = some (.string zstr, rest) := by
    have isString : keyType byte' = 1 := by
      rw [isKey, keyType, byteOf len lenSmall]
      omega
    have sameLen : keyLen byte' = len := by
      rw [isLen, keyLen, byteOf len lenSmall]
      omega
    rw [readKey, if_pos isString, sameLen, text, map_some]
  have isType (len : Nat) (lenSmall : len < 4) : dataType (bucketType 1 len 0 type) = type := by
    rw [dataType, byteOf len lenSmall]
    omega
  rcases isFound : miniFilterFind hash zstr g with ⟨_ | entry, g'⟩
  · rw [isFound] at short
    have short := short.resolve_right fun other => other rfl
    have lenSmall : lengthClass zstr < 4 := Nat.lt_succ_of_lt (lengthClass_lt zstr)
    simp only [writeKey, isFound, if_pos short]
    refine ⟨⟨bucketType 1 (lengthClass zstr) 0 type, lengthBytes (offsetByte zstr) zstr ++ zstr, ?_,
      isType _ lenSmall, fun whole _ _ idx _ byte' rest isKey isLen =>
        reads _ lenSmall isKey isLen ?_⟩, rfl, rfl⟩
    · rw [Stream.append, Stream.entry, append_assoc]
      rfl
    · exact readString_fresh (by omega)
  · obtain ⟨names, fits⟩ := @found_spec hash stream g zstr each small entry (by rw [isFound])
    simp only [writeKey, isFound]
    refine ⟨⟨bucketType 1 3 0 type,
      if entry.offset &&& 4 ≠ 0 then leBytes 4 entry.offset else leBytes 2 entry.offset, ?_,
      isType 3 (by decide), fun whole room within idx _ byte' rest isKey isLen =>
        reads 3 (by decide) isKey isLen ?_⟩, rfl, rfl⟩
    · rw [Stream.refer, Stream.entry, append_assoc]
      rfl
    · exact readString_refer names fits within room

theorem valueRead_raw {val : Zval} {type p : Nat} {bytes : Bytes} {stream' : Stream}
    {patch : UInt8 → UInt8} (keeps : Keeps patch)
    (types : ∀ q ∈ stream.types, q < stream.out.length)
    (out : stream'.out = stream.out.modify p patch ++ bytes)
    (sameTypes : stream'.types = stream.types) (scalar : stream'.scalar = stream.scalar)
    (reads : ∀ whole : Bytes, whole.length < 2 ^ 31 → stream'.Within whole →
      ∀ elements byte rest, dataType byte = type →
        readData whole elements (patch byte) (bytes ++ rest) = some (val, rest)) :
    ValueRead val type p stream stream' := by
  refine ⟨⟨patch, bytes, keeps, out, fun whole room within byte isType fuel _ => ?_⟩, sameTypes,
    scalar⟩
  have front := within.tail out fun q isIn => by
    rw [length_modify]
    exact types q (sameTypes ▸ isIn)
  rw [length_modify] at front
  rw [front]
  exact reads whole room within _ byte _ isType

theorem valueRead_string {zstr : Bytes} {p : Nat} {outer : List Nat} (each : g.Each (Names stream))
    (small : g.Each Small) (isOpen : stream.types = p :: outer)
    (types : ∀ q ∈ stream.types, q < stream.out.length) (room : zstr.length < 2 ^ 64) :
    ValueRead (.string zstr) 6 p stream (writeValue hash zstr stream g).1 := by
  have patched (length : Nat) : (stream.patch length).out =
      stream.out.modify p fun type => setDataLen type length := by
    rw [Stream.patch, isOpen]
  have reads {length : Nat} (lengthSmall : length < 4) {whole : Bytes} {byte : UInt8}
      {buffer rest : Bytes} (isType : dataType byte = 6)
      (text : readString whole length buffer = some (zstr, rest))
      (elements : Nat → Bytes → Option (Buckets × Bytes)) :
      readData whole elements (setDataLen byte length) buffer = some (.string zstr, rest) := by
    rw [readData, (keeps_setDataLen lengthSmall).dataType, isType]
    simp only [dataLen_setDataLen byte lengthSmall, text, map_some]
  rcases isFound : miniFilterFind hash zstr g with ⟨_ | entry, g'⟩
  · have lengthSmall : lengthClass zstr < 4 := Nat.lt_succ_of_lt (lengthClass_lt zstr)
    simp only [writeValue, isFound]
    refine valueRead_raw (keeps_setDataLen lengthSmall) types
      (congrArg (· ++ _) (patched (lengthClass zstr))) (stream.patch_fields _).1
      (stream.patch_fields _).2.2 fun whole _ _ elements byte rest isType =>
        reads lengthSmall isType ?_ elements
    exact readString_fresh room
  · obtain ⟨names, fits⟩ := @found_spec hash stream g zstr each small entry (by rw [isFound])
    simp only [writeValue, isFound]
    refine valueRead_raw (keeps_setDataLen (by decide)) types (congrArg (· ++ _) (patched 3))
      (stream.patch_fields _).1 (stream.patch_fields _).2.2
      fun whole room within elements byte rest isType =>
        reads (by decide) isType (readString_refer names fits ?_ room) elements
    have front : (stream.patch 3).Within whole := within.front rfl rfl
    exact front.patch

end

def Elems.Consecutive : Nat → Elems → Prop
  | _, .nil => True
  | idx, .index h _ rest => h.toNat = idx ∧ rest.Consecutive (idx + 1)
  | _, .key _ _ _ => False

theorem Elems.Ascends.consecutive {nextFree : Nat} {elems : Elems} {low : Nat}
    (ascends : elems.Ascends nextFree low) :
    low + elems.count ≤ nextFree ∧ (nextFree = low + elems.count → elems.Consecutive low) := by
  match elems with
  | .nil => exact ⟨ascends, fun _ => trivial⟩
  | .index h data rest =>
    obtain ⟨atLeast, others⟩ := ascends
    obtain ⟨bound, consecutive⟩ := Elems.Ascends.consecutive others
    rw [Elems.count]
    refine ⟨by omega, fun full => ?_⟩
    have same : h.toNat = low := by omega
    exact ⟨same, same ▸ consecutive (by omega)⟩

theorem Value.type_lt (value : Value) : value.type < 8 := by
  cases value with
  | bool value => cases value <;> decide
  | null | long | double | string | array | object => exact show _ < 8 by simp [Value.type]

section

variable {hash : Bytes → UInt64} {behind : Bytes → Bytes}

structure Ready (stream : Stream) (done : List Stream) (g : Filter) : Prop where
  kept : Kept ⟨[stream], done, g⟩
  small : g.Each Small
  full : stream.scalar = false

theorem Ready.types {stream : Stream} {done : List Stream} {g : Filter}
    (ready : Ready stream done g) : ∀ q ∈ stream.types, q < stream.out.length :=
  ready.kept.types stream (List.mem_singleton_self _)

theorem Ready.each {stream : Stream} {done : List Stream} {g : Filter}
    (ready : Ready stream done g) : g.Each (Names stream) :=
  ready.kept.innermost stream [] rfl

theorem Ready.run {stream stream' : Stream} {done : List Stream} {g g' : Filter}
    {actions : List Action} (ready : Ready stream done g)
    (clean : Clean hash behind actions ⟨[stream], done, g⟩)
    (same : run hash behind actions ⟨[stream], done, g⟩ = ⟨[stream'], done, g'⟩)
    (full : stream'.scalar = stream.scalar) : Ready stream' done g' := by
  have kept := clean.kept ready.kept
  have small := @run_small hash behind actions ⟨[stream], done, g⟩ ready.small
  rw [same] at kept small
  exact ⟨kept, small, full.trans ready.full⟩

theorem reads_cons {head : Action} {data : Value} {actions : List Action} {key : Key}
    {buckets : Buckets} {count : Nat} {isAt isKey isRest : Nat → Prop} {stream first : Stream}
    {done : List Stream} {g g' : Filter} (ready : Ready stream done g)
    (clean : Clean hash behind (head :: (valueActions data ++ .close :: actions))
      ⟨[stream], done, g⟩)
    (stepHead : step hash behind ⟨[stream], done, g⟩ head = ⟨[first], done, g'⟩)
    (keyRead : KeyRead isKey key data.type stream first)
    (dataReads : ∀ {stream : Stream} {g : Filter} {p : Nat} {outer : List Nat},
      stream.types = p :: outer → Ready stream done g →
      Clean hash behind (valueActions data) ⟨[stream], done, g⟩ →
      ∃ stream' g', run hash behind (valueActions data) ⟨[stream], done, g⟩ =
          ⟨[stream'], done, g'⟩ ∧ ValueRead data.zval data.type p stream stream')
    (restReads : ∀ {stream : Stream} {g : Filter}, Ready stream done g →
      Clean hash behind actions ⟨[stream], done, g⟩ →
      ∃ stream' g', run hash behind actions ⟨[stream], done, g⟩ = ⟨[stream'], done, g'⟩ ∧
        ElemsRead isRest count buckets stream stream')
    (places : ∀ idx, isAt idx → isKey idx ∧ isRest (idx + 1)) :
    ∃ stream' g', run hash behind (head :: (valueActions data ++ .close :: actions))
        ⟨[stream], done, g⟩ = ⟨[stream'], done, g'⟩ ∧
      ElemsRead isAt (count + 1) (.cons key data.zval buckets) stream stream' := by
  obtain ⟨meets, cleanBehind⟩ := clean
  rw [stepHead, clean_append] at cleanBehind
  obtain ⟨cleanData, cleanRest⟩ := cleanBehind
  have readyFirst : Ready first done g' :=
    @Ready.run hash behind _ _ _ _ _ [head] ready ⟨meets, trivial⟩ stepHead keyRead.scalar
  obtain ⟨second, g2, runData, dataRead⟩ := dataReads keyRead.types readyFirst cleanData
  rw [runData] at cleanRest
  have readySecond : Ready second done g2 := readyFirst.run cleanData runData dataRead.scalar
  have readyClose : Ready second.close done g2 :=
    @Ready.run hash behind _ _ _ _ _ [.close] readySecond ⟨trivial, trivial⟩ rfl rfl
  obtain ⟨last, g3, runRest, restRead⟩ := restReads readyClose cleanRest.2
  refine ⟨last, g3, ?_, elemsRead_cons ready.types keyRead dataRead restRead places⟩
  calc run hash behind (head :: (valueActions data ++ .close :: actions)) ⟨[stream], done, g⟩
      = run hash behind (valueActions data ++ .close :: actions) ⟨[first], done, g'⟩ := by
        rw [← stepHead]
        rfl
    _ = run hash behind (.close :: actions) ⟨[second], done, g2⟩ := by rw [run_append, runData]
    _ = run hash behind actions ⟨[second.close], done, g2⟩ := rfl
    _ = ⟨[last], done, g3⟩ := runRest

mutual

theorem Value.reads (value : Value) (plain : value.Plain) (ordered : value.Ordered)
    {stream : Stream} {done : List Stream} {g : Filter} {p : Nat} {outer : List Nat}
    (isOpen : stream.types = p :: outer) (ready : Ready stream done g)
    (clean : Clean hash behind (valueActions value) ⟨[stream], done, g⟩) :
    ∃ stream' g', run hash behind (valueActions value) ⟨[stream], done, g⟩ =
        ⟨[stream'], done, g'⟩ ∧ ValueRead value.zval value.type p stream stream' :=
  have patched (length : Nat) : (stream.patch length).out =
      stream.out.modify p fun type => setDataLen type length := by
    rw [Stream.patch, isOpen]
  have unpatched : stream.out = stream.out.modify p id ++ [] := by
    rw [List.modify_id, append_nil]
  match value with
  | .null => by
    refine ⟨stream, g, rfl, valueRead_raw keeps_id ready.types unpatched rfl rfl
      fun whole _ _ elements byte rest isType => ?_⟩
    rw [readData, id, isType]
    rfl
  | .bool truth => by
    refine ⟨stream, g, rfl, valueRead_raw keeps_id ready.types unpatched rfl rfl
      fun whole _ _ elements byte rest isType => ?_⟩
    rw [readData, id, isType]
    cases truth <;> rfl
  | .long number => by
    obtain ⟨length, bytes, small, actions, reads⟩ := longActions_spec number
    refine ⟨(stream.patch length).append bytes, g, by rw [valueActions, actions]; rfl,
      valueRead_raw (keeps_setDataLen small) ready.types (congrArg (· ++ _) (patched length))
        (stream.patch_fields length).1 (stream.patch_fields length).2.2
        fun whole _ _ elements byte rest isType => ?_⟩
    rw [readData, (keeps_setDataLen small).dataType, isType]
    simp only [Value.type, dataLen_setDataLen byte small, reads, map_some, Value.zval]
  | .double bits => by
    have same : (stream.append (leBytes 8 bits.toNat)).out =
        stream.out.modify p id ++ leBytes 8 bits.toNat := by
      rw [List.modify_id]
      rfl
    refine ⟨stream.append (leBytes 8 bits.toNat), g, rfl, valueRead_raw keeps_id ready.types
      same rfl rfl fun whole _ _ elements byte rest isType => ?_⟩
    have small : bits.toNat < 256 ^ 8 := bits.toNat_lt
    rw [readData, id, isType]
    simp only [Value.type, readLe_leBytes small, map_some, UInt64.ofNat_toNat, Value.zval]
  | .string zstr => by
    have runs : run hash behind (valueActions (.string zstr)) ⟨[stream], done, g⟩ =
        ⟨[(writeValue hash zstr stream g).1], done, (writeValue hash zstr stream g).2⟩ := by
      simp only [valueActions, run, List.foldl_cons, List.foldl_nil, step, ready.full,
        Bool.false_eq_true, if_false]
    have takes : (State.mk [stream] done g).Takes zstr := clean.1
    have room := takes.2 stream (List.mem_singleton_self _)
    rw [Stream.HasRoom] at room
    exact ⟨_, _, runs, valueRead_string ready.each ready.small isOpen ready.types (by omega)⟩
  | .array packed nextFree elems => by
    obtain ⟨length, bytes, small, actions, reads⟩ := arrayTypeActions_spec elems.count
    rw [valueActions, actions] at clean ⊢
    obtain ⟨cleanHead, cleanElems⟩ := clean_append.1 clean
    have readyHead : Ready ((stream.patch length).append bytes) done g :=
      ready.run cleanHead rfl (stream.patch_fields length).2.2
    obtain ⟨last, g', runs, elemsRead⟩ := elems.reads plain ordered.2
      (packed && nextFree == elems.count) readyHead cleanElems
    obtain ⟨new, out, atLeast, readsElems⟩ := elemsRead.text
    have outHead : ((stream.patch length).append bytes).out =
        stream.out.modify p (fun type => setDataLen type length) ++ bytes :=
      congrArg (· ++ bytes) (patched length)
    have lengthHead : ((stream.patch length).append bytes).out.length =
        stream.out.length + bytes.length := by
      rw [outHead, length_append, length_modify]
    have typesHead : last.types = stream.types :=
      elemsRead.types.trans (stream.patch_fields length).1
    refine ⟨last, g', by rw [run_append]; exact runs, ⟨_, bytes ++ new, keeps_setDataLen small,
      by rw [out, outHead, append_assoc],
      fun whole room within byte isType fuel enough => ?_⟩,
      typesHead, elemsRead.scalar.trans (stream.patch_fields length).2.2⟩
    have front : whole.drop stream.out.length =
        bytes ++ whole.drop ((stream.patch length).append bytes).out.length := by
      have text := within.drop (out.trans (congrArg (· ++ new) outHead)) fun q isIn => .inl (by
        rw [length_modify]
        exact ready.types q (typesHead ▸ isIn))
      rw [length_modify] at text
      rw [lengthHead]
      exact text
    have tail : whole.drop ((stream.patch length).append bytes).out.length =
        new ++ whole.drop last.out.length :=
      within.tail out fun q isIn => by
        rw [lengthHead]
        exact Nat.lt_add_right _ (ready.types q (typesHead ▸ isIn))
    have count : elems.count < 2 ^ 31 := by
      have := congrArg List.length tail
      rw [length_drop, length_append] at this
      omega
    have enough' :
        (whole.drop ((stream.patch length).append bytes).out.length).length < fuel := by
      rw [front, length_append] at enough
      omega
    have consecutive : (packed && nextFree == elems.count) = true → elems.Consecutive 0 := by
      intro isPack
      rw [Bool.and_eq_true, beq_iff_eq] at isPack
      exact (ordered.1 isPack.1).consecutive.2 (by rw [isPack.2, Nat.zero_add])
    rw [readData, (keeps_setDataLen small).dataType, isType, front]
    simp only [Value.type, dataLen_setDataLen byte small, reads (by omega), bind_eq_bind,
      bind_some]
    rw [if_neg (Nat.not_le.2 count), readsElems whole room within 0 consecutive fuel enough']
    rfl
  | .object _ _ _ _ _ => plain.elim

theorem Elems.reads (elems : Elems) (plain : elems.Plain) (ordered : elems.Ordered) (isPack : Bool)
    {stream : Stream} {done : List Stream} {g : Filter} (ready : Ready stream done g)
    (clean : Clean hash behind (elemsActions isPack elems) ⟨[stream], done, g⟩) :
    ∃ stream' g', run hash behind (elemsActions isPack elems) ⟨[stream], done, g⟩ =
        ⟨[stream'], done, g'⟩ ∧
      ElemsRead (fun idx => isPack = true → elems.Consecutive idx) elems.count elems.buckets
        stream stream' :=
  match elems with
  | .nil => ⟨stream, g, rfl, elemsRead_nil _⟩
  | .index h data rest => by
    obtain ⟨len, bytes, lenSmall, isHead, reads⟩ : ∃ len bytes, len < 4 ∧
        (if isPack then .index 0 [] data.type else indexAction h data.type) =
          Action.index len bytes data.type ∧
        ((∀ idx, (isPack = true → h.toNat = idx) → h.toNat = idx) ∧ len = 0 ∧ bytes = [] ∨
          len ≠ 0 ∧ ∀ rest, readLe (lengthWidth len) (bytes ++ rest) = some (h.toNat, rest)) := by
      cases isPack with
      | true => exact ⟨0, [], by decide, rfl, .inl ⟨fun _ place => place rfl, rfl, rfl⟩⟩
      | false =>
        obtain ⟨len, bytes, lenSmall, some, isHead, reads⟩ := indexAction_spec h data.type
        exact ⟨len, bytes, lenSmall, isHead, .inr ⟨some, reads⟩⟩
    rw [elemsActions, isHead] at clean ⊢
    exact reads_cons ready clean rfl (keyRead_index lenSmall data.type_lt reads)
      (data.reads plain.1 ordered.1) (rest.reads plain.2 ordered.2 isPack)
      fun idx isAt => ⟨fun on => (isAt on).1, fun on => (isAt on).2⟩
  | .key zstr data rest => by
    cases isPack with
    | true =>
      rw [elemsActions] at clean ⊢
      refine reads_cons ready clean rfl (keyRead_none data.type_lt)
        (data.reads plain.1 ordered.1) (rest.reads plain.2 ordered.2 true)
        fun idx isAt => ⟨isAt rfl, fun _ => (isAt rfl).elim⟩
    | false =>
      rw [elemsActions] at clean ⊢
      have stepHead : step hash behind ⟨[stream], done, g⟩ (.key zstr data.type) =
          ⟨[(writeKey hash behind zstr data.type stream g).1], done,
            (writeKey hash behind zstr data.type stream g).2⟩ := by
        simp only [step, ready.full, Bool.false_eq_true, if_false]
      have short : zstr.length ≤ 0xffff ∨ (miniFilterFind hash zstr g).1 ≠ none := clean.1.2
      exact reads_cons ready clean stepHead
        (keyRead_string data.type_lt ready.each ready.small short)
        (data.reads plain.1 ordered.1) (rest.reads plain.2 ordered.2 false)
        fun idx isAt => ⟨trivial, nofun⟩

end

end

/-! ## The whole stream -/

def RoundTrips (hash : Bytes → UInt64) (behind : Bytes → Bytes) (fast : Bool) (value : Value) :
    Prop :=
  ∃ stream, (run hash behind (callsActions (.pack fast value .nil)) .init).done = [stream] ∧
    phpSwooleUnserialize stream.out = some value.zval

def Stream.opened : Stream := ⟨[bucketType 0 0 0 7], [0], [], false⟩

section

variable {hash : Bytes → UInt64} {behind : Bytes → Bytes} {fast packed : Bool} {nextFree : Nat}
  {elems : Elems}

end

end PhpExts.Swoole.Serialize
