import PhpExts.Swoole.SerializeFilter
import Mathlib

/-!
# The buffer of a packed string

What `php_swoole_serialize` writes goes into a buffer that grows: before each write
`swoole_check_size` asks for as many bytes as are written, or for fifteen more. So all that is
written on the way stays inside, with the types that are patched. The NUL at the end does not:
it is counted from where the string begins, by an offset that has the header in it already, and
needs 25 bytes behind the last one where fifteen are promised at most (`stays_iff`).

Objects are left out.
-/

namespace PhpExts.Swoole.SerializeBuffer

open PhpExts.Swoole.Serialize (Bytes Filter Poolstr leBytes bucketType setDataLen lengthClass
  miniFilterAdd miniFilterFind miniFilterClear seriEof)

def strHeaderSize : Nat := 24

def seriaSize : Nat := 4096

/-- `seriaString`, with the bytes that are written behind the header. -/
structure SeriaString where
  offset : Nat
  total : Nat
  out : Bytes

inductive Fault where
  | outside
  | refused

/-- An `int`. -/
def toInt (n : Int) : Int := (n + 0x80000000) % 0x100000000 - 0x80000000

def zendMmAlignedSize (size : Int) : Int := (size + 7) / 8 * 8

/-- `swoole_string_new`, with the type of the value. -/
def swooleStringNew (type : UInt8) : SeriaString where
  offset := strHeaderSize + 1
  total := (zendMmAlignedSize (strHeaderSize + seriaSize + 1)).toNat
  out := [type]

/-- `swoole_check_size`. The size is an `int`, which is compared with a `size_t` and allocated as
one: a negative one is too large to be allocated. -/
def swooleCheckSize (len : Nat) (str : SeriaString) : Except Fault SeriaString :=
  let newSize := toInt (len + str.offset)
  if str.total < newSize % 0x10000000000000000 then
    let newSize := toInt (zendMmAlignedSize (toInt (newSize + seriaSize)))
    if newSize < 0 then .error .refused else .ok { str with total := newSize.toNat }
  else .ok str

inductive Write where
  | put (checked : Nat) (bytes : Bytes)
  | patch (place : Nat) (change : UInt8 → UInt8)

def Write.perform (str : SeriaString) : Write → Except Fault SeriaString
  | .put checked bytes => do
      let str ← swooleCheckSize checked str
      if bytes = [] ∨ str.offset + bytes.length ≤ str.total then
        .ok { str with offset := bytes.length + str.offset, out := str.out ++ bytes }
      else .error .outside
  | .patch place change =>
    if strHeaderSize + place < str.total then
      .ok { str with out := str.out.modify place change }
    else .error .outside

def perform : List Write → SeriaString → Except Fault SeriaString
  | [], str => .ok str
  | write :: writes, str => write.perform str >>= perform writes

structure ZendString where
  val : Bytes
  len : Nat

/-- The end of `php_swoole_serialize`: the NUL is put where `val` has the offset. -/
def terminate (str : SeriaString) : Except Fault ZendString :=
  if strHeaderSize + str.offset < str.total then .ok ⟨str.out, str.offset - strHeaderSize⟩
  else .error .outside

/-! ## What is written -/

inductive Key where
  | index (index : UInt64)
  | string (zstr : Bytes)

mutual

/-- A value. `walked` is an array that is met in itself for the second time, with an apply count
above one; `resource` is any type that is not supported. -/
inductive Zval where
  | undef
  | null
  | bool (value : Bool)
  | long (value : Int64)
  | double (bits : UInt64)
  | string (zstr : Bytes)
  | array (packed : Bool) (nextFree : Nat) (elems : Elems)
  | walked
  | resource
  | reference (val : Zval)
  | indirect (val : Zval)

inductive Elems where
  | nil
  | cons (key : Key) (data : Zval) (rest : Elems)

end

/-- `Z_TYPE_P`. -/
def Zval.type : Zval → Nat
  | .undef => 0
  | .null => 1
  | .bool false => 2
  | .bool true => 3
  | .long _ => 4
  | .double _ => 5
  | .string _ => 6
  | .array _ _ _ | .walked => 7
  | .resource => 9
  | .reference _ => 10
  | .indirect _ => 15

/-- `nNumOfElements`. -/
def Elems.count : Elems → Nat
  | .nil => 0
  | .cons _ _ rest => rest.count + 1

/-- The field `data_type` alone, of three bits. -/
def setDataType (type : UInt8) (dataType : Nat) : UInt8 :=
  UInt8.ofNat (type.toNat % 32 + 32 * dataType)

def size : List Write → Nat
  | [] => 0
  | .put _ bytes :: writes => bytes.length + size writes
  | .patch _ _ :: writes => size writes

structure Serializer where
  writes : List Write
  filter : Filter

namespace Serializer

def length (s : Serializer) : Nat := 1 + size s.writes

/-- `SERIA_SET_ENTRY_TYPE` and the others, which check for what they write. -/
def setEntry (bytes : Bytes) (s : Serializer) : Serializer :=
  { s with writes := s.writes ++ [.put bytes.length bytes] }

def stringCpy (mem : Bytes) (s : Serializer) : Serializer :=
  { s with writes := s.writes ++ [.put (mem.length + 15) mem] }

def patch (p : Nat) (change : UInt8 → UInt8) (s : Serializer) : Serializer :=
  { s with writes := s.writes ++ [.patch p change] }

def refer (swStr : Poolstr) (s : Serializer) : Serializer :=
  s.setEntry (leBytes (if swStr.offset &&& 4 ≠ 0 then 4 else 2) swStr.offset)

def serializeLong (value : Int) (p : Nat) (s : Serializer) : Serializer :=
  if value ≤ 0x7f ∧ value ≥ -0x7f then
    (s.patch p (setDataLen · 0)).setEntry (leBytes 1 (value % 2 ^ 8).toNat)
  else if value ≤ 0x7fff ∧ value ≥ -0x7fff then
    (s.patch p (setDataLen · 1)).setEntry (leBytes 2 (value % 2 ^ 16).toNat)
  else if value ≤ 0x7fffffff ∧ value ≥ -0x7fffffff then
    (s.patch p (setDataLen · 2)).setEntry (leBytes 4 (value % 2 ^ 32).toNat)
  else (s.patch p (setDataLen · 3)).stringCpy (leBytes 8 (value % 2 ^ 64).toNat)

def seriaArrayType (count p : Nat) (s : Serializer) : Serializer :=
  if count ≤ 0xff then (s.patch p (setDataLen · 1)).setEntry (leBytes 1 count)
  else if count ≤ 0xffff then (s.patch p (setDataLen · 2)).setEntry (leBytes 2 count)
  else (s.patch p (setDataLen · 0)).stringCpy (leBytes 4 count)

variable (hash : Bytes → UInt64) (behind : Bytes → Nat → UInt8)

/-- A string that is new to the filter; a long one is copied with its length in front. -/
def string (zstr withLen : Bytes) (s : Serializer) : Serializer :=
  if zstr.length ≤ 0xff then
    ({ s with filter := miniFilterAdd hash zstr s.length 1 s.filter }.setEntry
      (leBytes 1 zstr.length)).stringCpy zstr
  else if zstr.length ≤ 0xffff then
    ({ s with filter := miniFilterAdd hash zstr s.length 2 s.filter }.setEntry
      (leBytes 2 zstr.length)).stringCpy zstr
  else { s with filter := miniFilterAdd hash zstr s.length 3 s.filter }.stringCpy withLen

/-- The type and the key of an entry. A long key is not copied from where it is: the address is
counted in strings, and what is `behind` is copied. -/
def key (isPack : Bool) (key : Key) (dataType : Nat) (s : Serializer) : Serializer :=
  if isPack then s.setEntry [bucketType 0 0 0 dataType]
  else
    match key with
    | .string zstr =>
      match miniFilterFind hash zstr s.filter with
      | (some swStr, g) =>
        ({ s with filter := g }.setEntry [bucketType 1 3 0 dataType]).refer swStr
      | (none, g) =>
        ({ s with filter := g }.setEntry [bucketType 1 (lengthClass zstr) 0 dataType]).string
          hash zstr ((List.range (8 + zstr.length)).map (behind zstr))
    | .index index =>
      if index.toNat ≤ 0xff then
        (s.setEntry [bucketType 0 1 0 dataType]).setEntry (leBytes 1 index.toNat)
      else if index.toNat ≤ 0xffff then
        (s.setEntry [bucketType 0 2 0 dataType]).setEntry (leBytes 2 index.toNat)
      else (s.setEntry [bucketType 0 3 0 dataType]).setEntry (leBytes 8 index.toNat)

mutual

/-- The value of the entry whose type is at a place. -/
def data (p : Nat) : Zval → Serializer → Serializer
  | .string zstr, s =>
    match miniFilterFind hash zstr s.filter with
    | (some swStr, g) => ({ s with filter := g }.patch p (setDataLen · 3)).refer swStr
    | (none, g) =>
      ({ s with filter := g }.patch p (setDataLen · (lengthClass zstr))).string hash zstr
        (leBytes 8 zstr.length ++ zstr)
  | .long value, s => s.serializeLong value.toInt p
  | .double bits, s => s.setEntry (leBytes 8 bits.toNat)
  | .reference val, s => data p val (s.patch p (setDataType · val.type))
  | .indirect val, s => data p val (s.patch p (setDataType · val.type))
  | .array packed nextFree elems, s =>
    swooleSerializeArr (packed && nextFree == elems.count) elems (s.seriaArrayType elems.count p)
  | .undef, s | .null, s | .bool _, s | .walked, s | .resource, s => s

/-- `swoole_serialize_arr`, with the keys or without. -/
def swooleSerializeArr (isPack : Bool) : Elems → Serializer → Serializer
  | .nil, s => s
  | .cons key zval rest, s =>
    swooleSerializeArr isPack rest
      (data s.length zval (s.key hash behind isPack key zval.type))

end

def swooleSeriaDispatch : Zval → Serializer → Serializer
  | .long value, s => s.serializeLong value.toInt 0
  | .double bits, s => s.stringCpy (leBytes 8 bits.toNat)
  | .string zstr, s => s.stringCpy zstr
  | .array packed nextFree elems, s =>
    let s := (swooleSerializeArr hash behind (packed && nextFree == elems.count) elems
      (s.seriaArrayType elems.count 0)).stringCpy seriEof
    { s with filter := miniFilterClear s.filter }
  | .reference val, s => swooleSeriaDispatch val s
  | .undef, s | .null, s | .bool _, s | .walked, s | .resource, s | .indirect _, s => s

end Serializer

section

variable (hash : Bytes → UInt64) (behind : Bytes → Nat → UInt8)

/-- What is written for a value, one write after the other. -/
def writes (zvalue : Zval) (g : Filter) : List Write :=
  (Serializer.swooleSeriaDispatch hash behind zvalue ⟨[], g⟩).writes

def phpSwooleSerialize (zvalue : Zval) (g : Filter) : Except Fault ZendString :=
  perform (writes hash behind zvalue g) (swooleStringNew (bucketType 0 0 0 zvalue.type)) >>=
    terminate

end

/-! ## Where the writes are -/

/-- Nothing is written outside of the buffer, and the length that is recorded is that of the bytes
that have been written. -/
structure Stays (result : Except Fault ZendString) : Prop where
  inside : result ≠ .error .outside
  recorded : ∀ zstr, result = .ok zstr → zstr.len = zstr.val.length

def needs (offset : Nat) : List Write → List Nat
  | [] => []
  | .put checked bytes :: writes => (offset + checked) :: needs (offset + bytes.length) writes
  | .patch _ _ :: writes => needs offset writes

def grown (need : Nat) : Nat := (need + 4103) / 8 * 8

/-- A need that no `int` can be given: what is asked for is more than there is, and negative. -/
def Refused (total need : Nat) : Prop :=
  total < need % 0x100000000 ∧ 0x80000000 ≤ grown need % 0x100000000

instance {total need : Nat} : Decidable (Refused total need) :=
  inferInstanceAs (Decidable (_ ∧ _))

/-- What is left behind the end by the last of the sizes is enough for the NUL; or there is a need
that no `int` can be given, and it is refused. -/
def Reserves (ending : Nat) : Nat → List Nat → Prop
  | total, [] => ending + 25 ≤ total
  | total, need :: rest =>
    if need ≤ total then Reserves ending total rest
    else if grown need < 0x80000000 then Reserves ending (grown need) rest
    else Refused total need

/-- Each size that is checked has the bytes and at most fifteen more, and each type that is
patched has been written. -/
def Sound : Nat → List Write → Prop
  | _, [] => True
  | length, .put checked bytes :: writes =>
    bytes.length ≤ checked ∧ checked ≤ bytes.length + 15 ∧ Sound (length + bytes.length) writes
  | length, .patch place _ :: writes => place < length ∧ Sound length writes

theorem toInt_aligned (n : Nat) :
    toInt (zendMmAlignedSize (toInt (toInt n + seriaSize))) = toInt (grown n) := by
  obtain ⟨k, isInt⟩ : ∃ k : Int, toInt n = n - 0x100000000 * k :=
    ⟨(n + 0x80000000) / 0x100000000, by simp only [toInt]; omega⟩
  obtain ⟨l, isInt'⟩ : ∃ l : Int,
      toInt (toInt n + seriaSize) = n + seriaSize - 0x100000000 * l :=
    ⟨k + (toInt n + seriaSize + 0x80000000) / 0x100000000, by
      rw [isInt]
      simp only [toInt]
      omega⟩
  rw [isInt']
  simp only [zendMmAlignedSize, toInt, seriaSize, grown]
  omega

section

variable {len : Nat} {str : SeriaString} (small : str.total < 0x80000000)

include small

theorem swooleCheckSize_stays (fits : str.offset + len ≤ str.total) :
    swooleCheckSize len str = .ok str := by
  rw [swooleCheckSize, if_neg]
  simp only [toInt]
  omega

theorem swooleCheckSize_asks (more : str.total < (str.offset + len) % 0x100000000) :
    swooleCheckSize len str = if toInt (grown (str.offset + len)) < 0 then .error .refused
      else .ok { str with total := (toInt (grown (str.offset + len))).toNat } := by
  rw [swooleCheckSize, if_pos, ← Int.natCast_add, toInt_aligned, Nat.add_comm]
  simp only [toInt]
  omega

theorem swooleCheckSize_grows (more : str.total < str.offset + len)
    (isInt : grown (str.offset + len) < 0x80000000) :
    swooleCheckSize len str = .ok { str with total := grown (str.offset + len) } := by
  have same : toInt (grown (str.offset + len)) = (grown (str.offset + len) : Nat) := by
    simp only [toInt]
    omega
  simp only [grown] at isInt
  rw [swooleCheckSize_asks small (by omega), same, if_neg (by omega), Int.toNat_natCast]

theorem swooleCheckSize_refused (refused : Refused str.total (str.offset + len)) :
    swooleCheckSize len str = .error .refused := by
  rw [swooleCheckSize_asks small refused.1, if_pos]
  have := refused.2
  simp only [toInt]
  omega

theorem swooleCheckSize_short (isIn : str.offset ≤ str.total)
    (more : str.total < str.offset + len) (notInt : 0x80000000 ≤ grown (str.offset + len))
    (not_refused : ¬Refused str.total (str.offset + len)) :
    ∃ total, total + 15 < str.offset + len ∧ str.offset + 15 < str.offset + len ∧
      swooleCheckSize len str = .ok { str with total := total } := by
  by_cases asked : str.total < (str.offset + len) % 0x100000000
  · have isNat : grown (str.offset + len) % 0x100000000 < 0x80000000 :=
      Nat.lt_of_not_le fun negative => not_refused ⟨asked, negative⟩
    have same : toInt (grown (str.offset + len)) =
        (grown (str.offset + len) % 0x100000000 : Nat) := by
      simp only [toInt]
      omega
    refine ⟨grown (str.offset + len) % 0x100000000, ?_, ?_, ?_⟩
    · simp only [grown] at notInt isNat ⊢
      omega
    · simp only [grown] at notInt isNat
      omega
    · rw [swooleCheckSize_asks small asked, same, if_neg (by omega), Int.toNat_natCast]
  · refine ⟨str.total, by omega, by omega, ?_⟩
    rw [swooleCheckSize, if_neg]
    simp only [toInt]
    omega

end

/-- **Bytes are put inside the buffer, but for a need that is too large and is not refused.** -/
theorem perform_put {checked : Nat} {bytes : Bytes} {str : SeriaString}
    (isIn : str.offset ≤ str.total) (small : str.total < 0x80000000)
    (covers : bytes.length ≤ checked) (slack : checked ≤ bytes.length + 15) :
    (Write.put checked bytes).perform str = if str.offset + checked ≤ str.total then
        .ok ⟨bytes.length + str.offset, str.total, str.out ++ bytes⟩
      else if grown (str.offset + checked) < 0x80000000 then
        .ok ⟨bytes.length + str.offset, grown (str.offset + checked), str.out ++ bytes⟩
      else if Refused str.total (str.offset + checked) then .error .refused
      else .error .outside := by
  rw [Write.perform]
  split
  · next fits =>
      rw [swooleCheckSize_stays small fits]
      exact if_pos (.inr (by omega))
  · split
    · next isInt =>
        rw [swooleCheckSize_grows small (by omega) isInt]
        refine if_pos (.inr ?_)
        simp only [grown]
        omega
    · split
      · next refused =>
          rw [swooleCheckSize_refused small refused]
          rfl
      · next not_refused =>
          obtain ⟨total, short, some, isSize⟩ :=
            swooleCheckSize_short small isIn (by omega) (by omega) not_refused
          rw [isSize]
          refine if_neg ?_
          rintro (rfl | inside)
          · simp only [List.length_nil] at slack
            omega
          · simp only at inside
            omega

/-! ## A run of writes -/

/-- **Whether all stays inside, by what is left for the NUL.** -/
theorem perform_stays : ∀ (list : List Write) (str : SeriaString),
    Sound str.out.length list → str.offset = strHeaderSize + str.out.length →
    str.offset ≤ str.total → str.total < 0x80000000 → (Stays (perform list str >>= terminate) ↔
      Reserves (str.offset + size list) str.total (needs str.offset list))
  | [], str, _, counted, isIn, small => by
    change Stays (terminate str) ↔ str.offset + 25 ≤ str.total
    by_cases inside : strHeaderSize + str.offset < str.total
    · rw [terminate, if_pos inside]
      simp only [strHeaderSize] at inside
      refine iff_of_true ⟨nofun, fun zstr isOk => ?_⟩ (by omega)
      cases isOk
      simp only [counted]
      omega
    · rw [terminate, if_neg inside]
      exact iff_of_false (fun stays => stays.inside rfl)
        (by simp only [strHeaderSize] at inside; omega)
  | .put checked bytes :: list, str, ⟨covers, slack, sound⟩, counted, isIn, small => by
    have rest (total : Nat) (isIn : bytes.length + str.offset ≤ total)
        (small : total < 0x80000000) :=
      perform_stays list ⟨bytes.length + str.offset, total, str.out ++ bytes⟩
        (by simpa using sound) (by simp only [counted, List.length_append]; omega) isIn small
    simp only [Nat.add_comm bytes.length str.offset, Nat.add_assoc] at rest
    rw [perform, perform_put isIn small covers slack, needs, Reserves, size,
      Nat.add_comm bytes.length str.offset]
    split
    · exact rest _ (by omega) small
    · split
      · next isInt => exact rest _ (by simp only [grown]; omega) isInt
      · split
        · next refused => exact iff_of_true ⟨nofun, nofun⟩ refused
        · next not_refused => exact iff_of_false (fun stays => stays.inside rfl) not_refused
  | .patch place change :: list, str, ⟨written, sound⟩, counted, isIn, small => by
    have inside : strHeaderSize + place < str.total := by omega
    rw [perform, Write.perform, if_pos inside, needs, size]
    exact perform_stays list { str with out := str.out.modify place change }
      (by simpa using sound) (by simpa using counted) isIn small

theorem size_append : ∀ list list' : List Write, size (list ++ list') = size list + size list'
  | [], list' => (Nat.zero_add _).symm
  | .put _ bytes :: list, list' => by
    rw [List.cons_append, size, size, size_append list list', Nat.add_assoc]
  | .patch _ _ :: list, list' => size_append list list'

theorem sound_append : ∀ {length : Nat} {list list' : List Write}, Sound length list →
    Sound (length + size list) list' → Sound length (list ++ list')
  | _, [], _, _, sound' => sound'
  | _, .put _ _ :: _, _, ⟨covers, slack, sound⟩, sound' =>
    ⟨covers, slack, sound_append sound (by rwa [size, ← Nat.add_assoc] at sound')⟩
  | _, .patch _ _ :: _, _, ⟨written, sound⟩, sound' => ⟨written, sound_append sound sound'⟩

namespace Serializer

structure Wrote (p : Nat) (s : Serializer) : Prop where
  sound : Sound 1 s.writes
  behind : p < s.length

variable {p q : Nat} {s : Serializer} {bytes mem : Bytes} {change : UInt8 → UInt8}

theorem Wrote.filter (wrote : s.Wrote p) (g : Filter) : Wrote p { s with filter := g } :=
  ⟨wrote.sound, wrote.behind⟩

theorem Wrote.put {checked : Nat} (wrote : s.Wrote p) (covers : bytes.length ≤ checked)
    (slack : checked ≤ bytes.length + 15) :
    Wrote p { s with writes := s.writes ++ [.put checked bytes] } :=
  ⟨sound_append wrote.sound ⟨covers, slack, trivial⟩, by
    have := wrote.behind
    rw [length, size_append]
    simp only [length] at this
    omega⟩

theorem Wrote.setEntry (wrote : s.Wrote p) : (s.setEntry bytes).Wrote p :=
  wrote.put (Nat.le_refl _) (Nat.le_add_right _ _)

theorem Wrote.stringCpy (wrote : s.Wrote p) : (s.stringCpy mem).Wrote p :=
  wrote.put (Nat.le_add_right _ _) (Nat.le_refl _)

theorem Wrote.patch (wrote : s.Wrote p) (written : q ≤ p) : (s.patch q change).Wrote p :=
  ⟨sound_append wrote.sound ⟨Nat.lt_of_le_of_lt written wrote.behind, trivial⟩, by
    rw [Serializer.patch, length, size_append]
    exact wrote.behind⟩

theorem Wrote.refer {swStr : Poolstr} (wrote : s.Wrote p) : (s.refer swStr).Wrote p :=
  wrote.setEntry

theorem Wrote.serializeLong {value : Int} (wrote : s.Wrote p) (written : q ≤ p) :
    (s.serializeLong value q).Wrote p := by
  rw [Serializer.serializeLong]
  split_ifs
  · exact (wrote.patch written).setEntry
  · exact (wrote.patch written).setEntry
  · exact (wrote.patch written).setEntry
  · exact (wrote.patch written).stringCpy

theorem Wrote.seriaArrayType {count : Nat} (wrote : s.Wrote p) (written : q ≤ p) :
    (s.seriaArrayType count q).Wrote p := by
  rw [Serializer.seriaArrayType]
  split_ifs
  · exact (wrote.patch written).setEntry
  · exact (wrote.patch written).setEntry
  · exact (wrote.patch written).stringCpy

variable {hash : Bytes → UInt64} {behind : Bytes → Nat → UInt8}

theorem Wrote.string {zstr withLen : Bytes} (wrote : s.Wrote p) :
    (s.string hash zstr withLen).Wrote p := by
  rw [Serializer.string]
  split_ifs
  · exact (wrote.filter _).setEntry.stringCpy
  · exact (wrote.filter _).setEntry.stringCpy
  · exact (wrote.filter _).stringCpy

theorem Wrote.entry {type : UInt8} {g : Filter} (wrote : s.Wrote p) :
    ({ s with filter := g }.setEntry [type]).Wrote s.length :=
  ⟨wrote.setEntry.sound, by
    rw [Serializer.setEntry, length, length, size_append, size, size]
    simp⟩

theorem Wrote.key {isPack : Bool} {key : Key} {dataType : Nat} (wrote : s.Wrote p) :
    (s.key hash behind isPack key dataType).Wrote s.length := by
  rw [Serializer.key.eq_def]
  split
  · exact wrote.entry
  · cases key with
    | string zstr =>
      dsimp only
      split
      · exact wrote.entry.refer
      · exact wrote.entry.string
    | index index =>
      dsimp only
      split_ifs
      all_goals exact wrote.entry.setEntry

mutual

theorem Wrote.data (p q : Nat) : ∀ (val : Zval) {s : Serializer}, s.Wrote p → q ≤ p →
    (s.data hash behind q val).Wrote p
  | .string zstr, s, wrote, written => by
    rw [Serializer.data]
    split
    · exact ((wrote.filter _).patch written).refer
    · exact ((wrote.filter _).patch written).string
  | .long _, _, wrote, written => wrote.serializeLong written
  | .double _, _, wrote, _ => wrote.setEntry
  | .reference val, _, wrote, written | .indirect val, _, wrote, written =>
    Wrote.data p q val (wrote.patch written) written
  | .array _ _ elems, _, wrote, written =>
    Wrote.swooleSerializeArr p _ elems (wrote.seriaArrayType written)
  | .undef, _, wrote, _ | .null, _, wrote, _ | .bool _, _, wrote, _ | .walked, _, wrote, _
  | .resource, _, wrote, _ => wrote

theorem Wrote.swooleSerializeArr (p : Nat) (isPack : Bool) : ∀ (elems : Elems) {s : Serializer},
    s.Wrote p → (s.swooleSerializeArr hash behind isPack elems).Wrote p
  | .nil, _, wrote => wrote
  | .cons key zval rest, s, wrote => by
    have entry : ((s.key hash behind isPack key zval.type).data hash behind s.length zval).Wrote
        s.length := Wrote.data s.length s.length zval wrote.key (Nat.le_refl _)
    exact Wrote.swooleSerializeArr p isPack rest
      ⟨entry.sound, Nat.lt_trans wrote.behind entry.behind⟩

end

theorem Wrote.swooleSeriaDispatch : ∀ (zvalue : Zval) {s : Serializer}, s.Wrote 0 →
    (s.swooleSeriaDispatch hash behind zvalue).Wrote 0
  | .long _, _, wrote => wrote.serializeLong (Nat.le_refl _)
  | .double _, _, wrote => wrote.stringCpy
  | .string _, _, wrote => wrote.stringCpy
  | .array _ _ elems, _, wrote =>
    (Wrote.swooleSerializeArr 0 _ elems (wrote.seriaArrayType (Nat.le_refl _))).stringCpy.filter _
  | .reference val, _, wrote => Wrote.swooleSeriaDispatch val wrote
  | .undef, _, wrote | .null, _, wrote | .bool _, _, wrote | .walked, _, wrote
  | .resource, _, wrote | .indirect _, _, wrote => wrote

end Serializer

section

variable (hash : Bytes → UInt64) (behind : Bytes → Nat → UInt8)

theorem sound_writes (zvalue : Zval) (g : Filter) : Sound 1 (writes hash behind zvalue g) :=
  (Serializer.Wrote.swooleSeriaDispatch (s := ⟨[], g⟩) zvalue ⟨trivial, Nat.one_pos⟩).sound

theorem begins_stays (type : UInt8) {list : List Write} (sound : Sound 1 list) :
    Stays (perform list (swooleStringNew type) >>= terminate) ↔
      Reserves (25 + size list) 4128 (needs 25 list) :=
  perform_stays list (swooleStringNew type) sound rfl (show 25 ≤ 4128 by decide)
    (show 4128 < 0x80000000 by decide)

/-- **Everything that is written for a value stays inside the buffer exactly where the last of its
sizes leaves 25 bytes behind the end, or a size is refused.** -/
theorem stays_iff (zvalue : Zval) (g : Filter) : Stays (phpSwooleSerialize hash behind zvalue g) ↔
      Reserves (25 + size (writes hash behind zvalue g)) 4128
        (needs 25 (writes hash behind zvalue g)) :=
  begins_stays _ (sound_writes hash behind zvalue g)

/-- For a string alone: there are lengths behind which the buffer ends too early. -/
theorem string_stays (zstr : Bytes) (small : zstr.length < 0x40000000) (g : Filter) :
    Stays (phpSwooleSerialize hash behind (.string zstr) g) ↔
      zstr.length < 4079 ∨ 4088 < zstr.length := by
  refine (begins_stays _ (sound_writes hash behind (.string zstr) g)).trans ?_
  change Reserves (25 + zstr.length) 4128 [25 + (zstr.length + 15)] ↔ _
  rw [Reserves, Reserves, grown, Reserves]
  split_ifs <;> omega

end

/-- A string of 4080 bytes: the NUL is put behind the buffer. -/
theorem not_stays : ¬∀ hash behind zvalue g, Stays (phpSwooleSerialize hash behind zvalue g) := by
  intro stays
  have isLength : (List.replicate 4080 (0 : UInt8)).length = 4080 := List.length_replicate
  have inside := stays (fun _ => 0) (fun _ _ => 0) (.string (List.replicate 4080 0)) .init
  rw [string_stays _ _ _ (by omega)] at inside
  omega

end PhpExts.Swoole.SerializeBuffer
