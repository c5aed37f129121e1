import PhpExts.Igbinary.Unserialize

/-!
# Property tables in igbinary

`igbinary_serialize_array` and `igbinary_unserialize_array` for the properties of an object.
The encoder writes every key as the table has it; the decoder stores an integer as its decimal
notation, and a string that is the decimal notation of a long as that integer.

A property table comes back exactly if all its keys are strings that are no such notation
(`unserialize_serialize_iff`). The values go through a codec of their own that shares the
strings with the keys.
-/

namespace PhpExts.Igbinary.PropertyTable

open PhpExts.Zend PhpExts.Library
open List (length_append map_append map_cons mem_cons not_mem_nil prefix_refl)

/-- `igbinary_serialize_zval` and `igbinary_unserialize_zval` as the loops over the elements see
them: they take the strings that have been met, and what else they keep for themselves. The
decoder gets the bytes that are left. -/
structure ValueCodec (V E D : Type) where
  serialize : V → List Bytes → E → Bytes × List Bytes × E
  unserialize : Bytes → List Bytes → D → Option (V × Bytes × List Bytes × D)

variable {V E D : Type}

/-- The value comes back from between any other bytes, the strings of both sides stay the same,
and so does the pairing of what else they keep. -/
def Carried (codec : ValueCodec V E D) (paired : E → D → Prop) (v : V) : Prop :=
  ∀ strings e d, paired e d →
    strings <+: (codec.serialize v strings e).2.1 ∧
    ∃ d', paired (codec.serialize v strings e).2.2 d' ∧
      ∀ rest, codec.unserialize ((codec.serialize v strings e).1 ++ rest) strings d =
        some (v, rest, (codec.serialize v strings e).2.1, d')

def serializeSized (t8 t16 t32 : IgType) (n : Nat) : Bytes :=
  if n ≤ 0xff then t8.toByte :: bigEndian 1 n
  else if n ≤ 0xffff then t16.toByte :: bigEndian 2 n
  else t32.toByte :: bigEndian 4 n

def serializeLong (w : WordSize) (l : Int) : Bytes :=
  let k := l.natAbs
  if k ≤ 0xff then (if 0 ≤ l then IgType.long8p else .long8n).toByte :: bigEndian 1 k
  else if k ≤ 0xffff then (if 0 ≤ l then IgType.long16p else .long16n).toByte :: bigEndian 2 k
  else if w = .four ∨ k ≤ 0xffffffff then
    (if 0 ≤ l then IgType.long32p else .long32n).toByte :: bigEndian 4 k
  else (if 0 ≤ l then IgType.long64p else .long64n).toByte :: bigEndian 8 k

def serializeChararray (s : Bytes) : Bytes :=
  serializeSized .string8 .string16 .string32 s.length ++ s

/-- `igbinary_serialize_string`: with `compact_strings` a string that was met is written by its
number. -/
def serializeString (compact : Bool) (s : Bytes) (strings : List Bytes) : Bytes × List Bytes :=
  if s = [] then ([IgType.stringEmpty.toByte], strings)
  else
    match if compact then strings.findIdx? (· == s) else none with
    | some id => (serializeSized .stringId8 .stringId16 .stringId32 id, strings)
    | none => (serializeChararray s, strings ++ [s])

def serializeKey (w : WordSize) (compact : Bool) (key : HashKey) (strings : List Bytes) :
    Bytes × List Bytes :=
  match key with
  | .index h => (serializeLong w h, strings)
  | .string s => serializeString compact s strings

/-- The loop of `igbinary_serialize_array`. -/
def serializeElements (w : WordSize) (compact : Bool) (codec : ValueCodec V E D) :
    List (HashKey × V) → List Bytes → E → Bytes × List Bytes × E
  | [], strings, e => ([], strings, e)
  | (key, v) :: rest, strings, e =>
    let (keyBytes, strings) := serializeKey w compact key strings
    let (bytes, strings, e) := codec.serialize v strings e
    let (behind, strings, e) := serializeElements w compact codec rest strings e
    (keyBytes ++ (bytes ++ behind), strings, e)

/-- `igbinary_serialize_array`, for the properties of an object whose class is known. -/
def serializeArray (w : WordSize) (compact : Bool) (codec : ValueCodec V E D)
    (table : HashTable V) (strings : List Bytes) (e : E) : Bytes × List Bytes × E :=
  let (bytes, strings, e) := serializeElements w compact codec table.buckets strings e
  (serializeSized .array8 .array16 .array32 table.numElements ++ bytes, strings, e)

/-- A number of `n` bytes, if they are there. -/
def unserializeNumber (n : Nat) (bytes : Bytes) : Option (Nat × Bytes) :=
  if bytes.length < n then none else some (ofBigEndian (bytes.take n), bytes.drop n)

def longWidth : IgType → Nat
  | .long8p | .long8n => 1
  | .long16p | .long16n => 2
  | .long32p | .long32n => 4
  | _ => 8

/-- `igbinary_unserialize_long`, behind its type. -/
def unserializeLong (w : WordSize) (t : IgType) (bytes : Bytes) : Option (Int × Bytes) :=
  match unserializeNumber (longWidth t) bytes with
  | none => none
  | some (n, rest) =>
    if w = .four ∧ (longWidth t = 8 ∨
        longWidth t = 4 ∧ (0x80000000 < n ∨ n = 0x80000000 ∧ t = .long32p)) then
      some (0, rest)
    else if w = .eight ∧ longWidth t = 8 ∧
        (0x8000000000000000 < n ∨ n = 0x8000000000000000 ∧ t = .long64p) then
      some (0, rest)
    else some (w.toLong (t.sign * n), rest)

def unserializeString (t : IgType) (bytes : Bytes) (strings : List Bytes) :
    Option (Bytes × Bytes) :=
  match unserializeNumber t.width bytes with
  | none => none
  | some (id, rest) => (strings[id]?).map fun s => (s, rest)

def unserializeChararray (t : IgType) (bytes : Bytes) (strings : List Bytes) :
    Option (Bytes × Bytes × List Bytes) :=
  match unserializeNumber t.width bytes with
  | none => none
  | some (length, rest) =>
    if rest.length < length then none
    else some (rest.take length, rest.drop length, strings ++ [rest.take length])

inductive ReadKey where
  | skip
  | index (h : Int)
  | string (s : Bytes)

def unserializeKey (w : WordSize) (bytes : Bytes) (strings : List Bytes) :
    Option (ReadKey × Bytes × List Bytes) :=
  match bytes with
  | [] => none
  | byte :: rest =>
    match IgType.ofByte byte with
    | some .long8p | some .long8n | some .long16p | some .long16n | some .long32p
    | some .long32n | some .long64p | some .long64n =>
      (unserializeLong w ((IgType.ofByte byte).getD .null) rest).map
        fun (h, rest) => (.index h, rest, strings)
    | some .stringId8 | some .stringId16 | some .stringId32 =>
      (unserializeString ((IgType.ofByte byte).getD .null) rest strings).map
        fun (s, rest) => (.string s, rest, strings)
    | some .string8 | some .string16 | some .string32 =>
      (unserializeChararray ((IgType.ofByte byte).getD .null) rest strings).map
        fun (s, rest, strings) => (.string s, rest, strings)
    | some .stringEmpty => some (.string [], rest, strings)
    | some .null => some (.skip, rest, strings)
    | _ => none

/-- The loop of `igbinary_unserialize_array` over the properties of an object: strings go
through `zend_symtable_update`, integers through their notation. -/
def unserializeElements (w : WordSize) (codec : ValueCodec V E D) :
    Nat → Bytes → List Bytes → D → HashTable V → Option (HashTable V × Bytes × List Bytes × D)
  | 0, bytes, strings, d, table => some (table, bytes, strings, d)
  | n + 1, bytes, strings, d, table =>
    match unserializeKey w bytes strings with
    | none => none
    | some (.skip, rest, strings) => unserializeElements w codec n rest strings d table
    | some (.index h, rest, strings) =>
      match codec.unserialize rest strings d with
      | none => none
      | some (v, rest, strings, d) =>
        unserializeElements w codec n rest strings d (table.update w (.string (printLong h)) v)
    | some (.string s, rest, strings) =>
      match codec.unserialize rest strings d with
      | none => none
      | some (v, rest, strings, d) =>
        unserializeElements w codec n rest strings d (table.symtableUpdate w s v)

/-- `igbinary_unserialize_array` for the properties of an object. The table has the declared
properties of the class already. -/
def unserializeArray (w : WordSize) (codec : ValueCodec V E D) (bytes : Bytes)
    (strings : List Bytes) (d : D) (declared : HashTable V) :
    Option (HashTable V × Bytes × List Bytes × D) :=
  match bytes with
  | [] => none
  | byte :: rest =>
    match IgType.ofByte byte with
    | some .array8 | some .array16 | some .array32 =>
      match unserializeNumber ((IgType.ofByte byte).getD .null).width rest with
      | none => none
      | some (n, rest) =>
        if rest.length < n then none
        else unserializeElements w codec n rest strings d declared
    | _ => none

/-! ## Numbers and strings come back -/

theorem unserializeNumber_bigEndian {k n : Nat} (fits : n < 256 ^ k) (rest : Bytes) :
    unserializeNumber k (bigEndian k n ++ rest) = some (n, rest) := by
  have length := length_bigEndian k n
  have enough : ¬ (bigEndian k n ++ rest).length < k := by
    rw [length_append, length]
    omega
  rw [unserializeNumber, if_neg enough, List.take_left' length, List.drop_left' length,
    ofBigEndian_bigEndian_of_lt fits]

theorem serializeSized_eq {t8 t16 t32 : IgType} (w8 : t8.width = 1) (w16 : t16.width = 2)
    (w32 : t32.width = 4) {n : Nat} (fits : n < 2 ^ 32) :
    ∃ t ∈ [t8, t16, t32], serializeSized t8 t16 t32 n = t.toByte :: bigEndian t.width n ∧
      n < 256 ^ t.width := by
  unfold serializeSized
  split
  · exact ⟨t8, by simp, by rw [w8], by rw [w8]; omega⟩
  · split
    · exact ⟨t16, by simp, by rw [w16], by rw [w16]; omega⟩
    · exact ⟨t32, by simp, by rw [w32], by rw [w32]; omega⟩

section

variable {w : WordSize} {strings : List Bytes} {rest : Bytes}

theorem unserializeKey_long {l : Int} (low : w.longMin ≤ l) (high : l ≤ w.longMax) :
    unserializeKey w (serializeLong w l ++ rest) strings = some (.index l, rest, strings) := by
  -- the bytes are a type of some width and the absolute value
  have read : ∀ t : IgType, t ∈ [IgType.long8p, .long8n, .long16p, .long16n, .long32p, .long32n,
      .long64p, .long64n] → t.sign * (l.natAbs : Int) = l → l.natAbs < 256 ^ longWidth t →
      ¬ (w = .four ∧ longWidth t = 8) →
      unserializeKey w (t.toByte :: bigEndian (longWidth t) l.natAbs ++ rest) strings =
        some (.index l, rest, strings) := by
    intro t isLong value fits notWide
    have number := unserializeNumber_bigEndian fits rest
    have four : w = .four → ¬ (0x80000000 < l.natAbs ∨ l.natAbs = 0x80000000 ∧ t = .long32p) := by
      rintro rfl
      simp only [WordSize.longMin, WordSize.longMax, WordSize.modulus, WordSize.bytes] at low high
      rintro (big | ⟨big, rfl⟩)
      · omega
      · simp only [IgType.sign] at value
        omega
    have eight : w = .eight →
        ¬ (0x8000000000000000 < l.natAbs ∨ l.natAbs = 0x8000000000000000 ∧ t = .long64p) := by
      rintro rfl
      simp only [WordSize.longMin, WordSize.longMax, WordSize.modulus, WordSize.bytes] at low high
      rintro (big | ⟨big, rfl⟩)
      · omega
      · simp only [IgType.sign] at value
        omega
    have long :
        unserializeLong w t (bigEndian (longWidth t) l.natAbs ++ rest) = some (l, rest) := by
      unfold unserializeLong
      rw [number]
      simp only
      rw [if_neg, if_neg, value, WordSize.toLong_eq low high]
      · rintro ⟨isEight, -, outside⟩
        exact eight isEight outside
      · rintro ⟨isFour, wide | ⟨-, outside⟩⟩
        · exact notWide ⟨isFour, wide⟩
        · exact four isFour outside
    simp only [mem_cons, not_mem_nil, or_false] at isLong
    rcases isLong with rfl | rfl | rfl | rfl | rfl | rfl | rfl | rfl <;>
      simp [unserializeKey, long]
  have positive : 0 ≤ l → (1 : Int) * (l.natAbs : Int) = l := by omega
  have negative : ¬ 0 ≤ l → (-1 : Int) * (l.natAbs : Int) = l := by omega
  unfold serializeLong
  simp only
  split
  · rename_i small
    split
    · exact read .long8p (by simp) (positive ‹_›) (by simp [longWidth]; omega)
        (by simp [longWidth])
    · exact read .long8n (by simp) (negative ‹_›) (by simp [longWidth]; omega)
        (by simp [longWidth])
  split
  · split
    · exact read .long16p (by simp) (positive ‹_›) (by simp [longWidth]; omega)
        (by simp [longWidth])
    · exact read .long16n (by simp) (negative ‹_›) (by simp [longWidth]; omega)
        (by simp [longWidth])
  have bound : w = .four → l.natAbs < 2 ^ 32 := by
    rintro rfl
    simp only [WordSize.longMin, WordSize.longMax, WordSize.modulus, WordSize.bytes] at low high
    omega
  have bound' : l.natAbs < 2 ^ 64 := by
    cases w <;>
      simp only [WordSize.longMin, WordSize.longMax, WordSize.modulus, WordSize.bytes]
        at low high <;>
      omega
  split
  · rename_i fourBytes
    have fits : l.natAbs < 256 ^ 4 := by
      rcases fourBytes with four | small
      · exact bound four
      · omega
    split
    · exact read .long32p (by simp) (positive ‹_›) fits (by simp [longWidth])
    · exact read .long32n (by simp) (negative ‹_›) fits (by simp [longWidth])
  · rename_i eightBytes
    have notFour : ¬ w = .four := fun four => eightBytes (.inl four)
    split
    · exact read .long64p (by simp) (positive ‹_›) bound' fun both => notFour both.1
    · exact read .long64n (by simp) (negative ‹_›) bound' fun both => notFour both.1

theorem unserializeKey_string (compact : Bool) {s : Bytes} (short : s.length < 2 ^ 32)
    (few : strings.length ≤ 2 ^ 32) :
    unserializeKey w ((serializeString compact s strings).1 ++ rest) strings =
      some (.string s, rest, (serializeString compact s strings).2) := by
  unfold serializeString
  split
  · rename_i empty
    subst empty
    simp [unserializeKey]
  · split
    · rename_i id met
      have found : strings.findIdx? (· == s) = some id := by
        cases compact with
        | true => exact met
        | false => cases met
      obtain ⟨inside, isString, -⟩ := List.findIdx?_eq_some_iff_getElem.mp found
      have here : strings[id]? = some s := by
        rw [List.getElem?_eq_getElem inside]
        exact congrArg some (by simpa using isString)
      obtain ⟨t, isId, bytes, fits⟩ := @serializeSized_eq .stringId8 .stringId16 .stringId32 rfl
        rfl rfl id (by omega)
      have read : unserializeString t (bigEndian t.width id ++ rest) strings = some (s, rest) := by
        rw [unserializeString, unserializeNumber_bigEndian fits]
        simp [here]
      rw [bytes]
      simp only [mem_cons, not_mem_nil, or_false] at isId
      rcases isId with rfl | rfl | rfl <;> simp [unserializeKey, read]
    · obtain ⟨t, isString, bytes, fits⟩ := @serializeSized_eq .string8 .string16 .string32 rfl rfl
        rfl s.length short
      have read : unserializeChararray t (bigEndian t.width s.length ++ (s ++ rest)) strings =
          some (s, rest, strings ++ [s]) := by
        rw [unserializeChararray, unserializeNumber_bigEndian fits]
        simp
      rw [serializeChararray, bytes]
      simp only [mem_cons, not_mem_nil, or_false] at isString
      rcases isString with rfl | rfl | rfl <;> simp [unserializeKey, read]

end

/-! ## Decimal notations -/

variable {w : WordSize}

def digits (n : Nat) : Bytes := (Nat.toDigits 10 n).map fun c => UInt8.ofNat c.toNat

theorem digitChar_toNat : ∀ n < 10, n.digitChar.toNat = 48 + n := by
  decide

theorem digits_eq (n : Nat) : digits n = if n < 10 then [UInt8.ofNat (48 + n)]
      else digits (n / 10) ++ [UInt8.ofNat (48 + n % 10)] := by
  unfold digits
  rw [Nat.toDigits_eq_if (by omega)]
  split
  · rename_i small
    simp [digitChar_toNat n small]
  · simp [digitChar_toNat _ (Nat.mod_lt n (by omega : 0 < 10))]

theorem digits_spec (n : Nat) :
    (∀ d ∈ digits n, 48 ≤ d ∧ d ≤ 57) ∧ decimal (digits n) = n ∧ digits n ≠ [] ∧
      (0 < n → (digits n).head? ≠ some 48) := by
  induction n using Nat.strongRecOn with
  | ind n ih =>
    have digit : ∀ k < 10, (48 ≤ UInt8.ofNat (48 + k) ∧ UInt8.ofNat (48 + k) ≤ 57) ∧
        (UInt8.ofNat (48 + k)).toNat - 48 = k ∧ (0 < k → UInt8.ofNat (48 + k) ≠ 48) := by
      decide
    rw [digits_eq]
    split
    · rename_i small
      obtain ⟨range, value, first⟩ := digit n small
      refine ⟨by simpa using range, by simpa [decimal] using value, by simp, ?_⟩
      intro positive
      simpa using first positive
    · obtain ⟨range, value, -⟩ := digit (n % 10) (Nat.mod_lt _ (by omega))
      obtain ⟨ranges, front, some_digit, head⟩ := ih (n / 10) (by omega)
      refine ⟨?_, ?_, by simp, ?_⟩
      · exact List.forall_mem_append.mpr ⟨ranges, List.forall_mem_singleton.mpr range⟩
      · unfold decimal at front ⊢
        rw [List.foldl_append, front]
        simp only [List.foldl_cons, List.foldl_nil, value]
        omega
      · intro _
        rw [List.head?_append_of_ne_nil _ some_digit]
        exact head (by omega)

theorem printLong_eq (l : Int) :
    printLong l = if 0 ≤ l then digits l.natAbs else 45 :: digits l.natAbs := by
  cases l with
  | ofNat n =>
    have positive : 0 ≤ Int.ofNat n := Int.natCast_nonneg n
    rw [if_pos positive]
    change (n.repr).toList.map _ = _
    rw [Nat.toList_repr]
    rfl
  | negSucc n =>
    rw [if_neg (by omega)]
    change ("-" ++ (n + 1).repr).toList.map _ = _
    rw [String.toList_append, map_append, Nat.toList_repr]
    rfl

theorem handleNumeric_printLong {l : Int} (low : w.longMin ≤ l)
    (high : l ≤ w.longMax) : handleNumeric w (printLong l) ≠ none := by
  obtain ⟨range, value, some_digit, head⟩ := digits_spec l.natAbs
  have digitsOnly : ¬ (digits l.natAbs = [] ∨
      ¬ (digits l.natAbs).all (fun d => 48 ≤ d ∧ d ≤ 57)) := by
    simpa [some_digit] using range
  have bounds : w.longMin = -(w.longMax + 1) := by
    unfold WordSize.longMin WordSize.longMax
    omega
  rw [printLong_eq]
  split
  · rename_i positive
    have noSign : (digits l.natAbs).head? ≠ some 45 := by
      intro sign
      have mem := List.mem_of_head? sign
      have := range 45 mem
      revert this
      decide
    have noZero : ¬ ((digits l.natAbs).head? = some 48 ∧ 1 < (digits l.natAbs).length) := by
      rintro ⟨zero, long⟩
      by_cases nonzero : 0 < l.natAbs
      · exact head nonzero zero
      · have : l.natAbs = 0 := by omega
        rw [this, digits_eq] at long
        simp at long
    unfold handleNumeric
    simp only [noSign, if_false]
    rw [if_neg digitsOnly, if_neg noZero, if_pos (by rw [value]; omega)]
    simp
  · rename_i negative
    have noZero : ¬ ((digits l.natAbs).head? = some 48 ∧ 1 < (45 :: digits l.natAbs).length) := by
      rintro ⟨zero, -⟩
      exact head (by omega) zero
    unfold handleNumeric
    simp only [List.head?_cons, if_true, List.tail_cons]
    rw [if_neg digitsOnly, if_neg noZero, if_pos (by rw [value]; omega)]
    simp

def storedKey (w : WordSize) : HashKey → HashKey
  | .index h => .string (printLong h)
  | .string s => symtableKey w s

def Named (w : WordSize) (key : HashKey) : Prop := ∃ s, key = .string s ∧ handleNumeric w s = none

def storeAll (w : WordSize) (table : HashTable V) (buckets : List (HashKey × V)) : HashTable V :=
  buckets.foldl (fun table bucket => table.update w (storedKey w bucket.1) bucket.2) table

theorem storedKey_of_named {key : HashKey} (named : Named w key) : storedKey w key = key := by
  obtain ⟨s, rfl, plain⟩ := named
  exact symtableKey_of_not_numeric plain

theorem storedKey_of_not_named {key : HashKey} (unnamed : ¬ Named w key)
    (range : ∀ h, key = .index h → w.longMin ≤ h ∧ h ≤ w.longMax) :
    storedKey w key ≠ key ∧ ¬ Named w (storedKey w key) := by
  cases key with
  | index h =>
    obtain ⟨low, high⟩ := range h rfl
    refine ⟨by simp [storedKey], ?_⟩
    rintro ⟨s, same, plain⟩
    obtain rfl : printLong h = s := by simpa [storedKey] using same
    exact handleNumeric_printLong low high plain
  | string s =>
    cases numeric : handleNumeric w s with
    | none => exact absurd ⟨s, rfl, numeric⟩ unnamed
    | some h =>
      have stored : storedKey w (.string s) = .index h := by simp [storedKey, symtableKey, numeric]
      rw [stored]
      exact ⟨by simp, by rintro ⟨s, same, -⟩; cases same⟩

theorem keys_store (buckets : List (HashKey × V)) (key : HashKey) (v : V) :
    (HashTable.store buckets key v).map Prod.fst =
      if key ∈ buckets.map Prod.fst then buckets.map Prod.fst
      else buckets.map Prod.fst ++ [key] := by
  induction buckets with
  | nil => rfl
  | cons bucket rest ih =>
    obtain ⟨k, old⟩ := bucket
    rw [HashTable.store]
    by_cases same : k = key
    · simp [same]
    · have other : key ≠ k := Ne.symm same
      rw [if_neg same]
      simp only [map_cons, mem_cons, other, false_or, ih]
      split <;> rfl

theorem store_append {front rest : List (HashKey × V)} {key : HashKey} {old v : V}
    (fresh : key ∉ front.map Prod.fst) :
    HashTable.store (front ++ (key, old) :: rest) key v = front ++ [(key, v)] ++ rest := by
  induction front with
  | nil => simp [HashTable.store]
  | cons bucket front ih =>
    rw [map_cons, mem_cons, not_or] at fresh
    rw [List.cons_append, HashTable.store, if_neg (Ne.symm fresh.1), ih fresh.2]
    rfl

theorem keys_update (w : WordSize) (table : HashTable V) (key : HashKey) (v : V) :
    (table.update w key v).keys = if key ∈ table.keys then table.keys else table.keys ++ [key] :=
  keys_store table.buckets key v

theorem prefix_storeAll (w : WordSize) (table : HashTable V) (buckets : List (HashKey × V)) :
    table.keys <+: (storeAll w table buckets).keys := by
  induction buckets generalizing table with
  | nil => exact prefix_refl _
  | cons bucket buckets ih =>
    refine List.IsPrefix.trans ?_ (ih (table.update w (storedKey w bucket.1) bucket.2))
    rw [keys_update]
    split
    · exact prefix_refl _
    · exact List.prefix_append _ _

theorem buckets_storeAll {table : HashTable V}
    {done pending buckets : List (HashKey × V)} (holds : table.buckets = done ++ pending)
    (next : pending.map Prod.fst <+: buckets.map Prod.fst)
    (distinct : ((done ++ buckets).map Prod.fst).Nodup)
    (named : ∀ bucket ∈ buckets, Named w bucket.1) :
    (storeAll w table buckets).buckets = done ++ buckets := by
  induction buckets generalizing table done pending with
  | nil =>
    have empty : pending = [] := by simpa using next
    simpa [storeAll, empty] using holds
  | cons bucket buckets ih =>
    obtain ⟨key, v⟩ := bucket
    have fresh : key ∉ done.map Prod.fst := by
      intro mem
      rw [map_append, List.nodup_append] at distinct
      exact distinct.2.2 key mem key (by simp) rfl
    have stored : storedKey w key = key := storedKey_of_named (named (key, v) (.head _))
    have distinct' : (((done ++ [(key, v)]) ++ buckets).map Prod.fst).Nodup := by
      simpa using distinct
    have whole : done ++ (key, v) :: buckets = (done ++ [(key, v)]) ++ buckets := by simp
    have named' : ∀ bucket ∈ buckets, Named w bucket.1 := fun bucket mem =>
      named bucket (.tail _ mem)
    rw [whole]
    change (storeAll w (table.update w (storedKey w key) v) buckets).buckets = _
    rw [stored]
    cases pending with
    | nil =>
      refine @ih (table.update w key v) (done ++ [(key, v)]) [] ?_ List.nil_prefix distinct'
        named'
      have absent : key ∉ table.keys := by
        rw [HashTable.keys, holds, List.append_nil]
        exact fresh
      rw [HashTable.update_of_notMem absent, holds]
      simp
    | cons head pending =>
      obtain ⟨key', old⟩ := head
      obtain ⟨same, next'⟩ := List.cons_prefix_cons.mp next
      obtain rfl : key' = key := same
      refine @ih (table.update w key' v) (done ++ [(key', v)]) pending ?_ next' distinct' named'
      rw [HashTable.update, holds]
      exact store_append fresh

theorem keys_storeAll_ne {table : HashTable V} {before behind : List (HashKey × V)}
    {key : HashKey} {v : V} (distinct : ((before ++ (key, v) :: behind).map Prod.fst).Nodup)
    (named : ∀ bucket ∈ before, Named w bucket.1) (unnamed : ¬ Named w key)
    (range : ∀ h, key = .index h → w.longMin ≤ h ∧ h ≤ w.longMax)
    (declared : table.keys <+: before.map Prod.fst) :
    (storeAll w table (before ++ (key, v) :: behind)).keys ≠
      (before ++ (key, v) :: behind).map Prod.fst := by
  obtain ⟨other, stillUnnamed⟩ := storedKey_of_not_named unnamed range
  have distinctBefore : (([] ++ before).map Prod.fst).Nodup := by
    rw [map_append] at distinct
    exact (List.nodup_append.mp distinct).1
  have front : (storeAll w table before).keys = before.map Prod.fst := by
    rw [HashTable.keys, @buckets_storeAll _ w table [] table.buckets before rfl declared
      distinctBefore named, List.nil_append]
  have absent : storedKey w key ∉ (storeAll w table before).keys := by
    rw [front]
    intro mem
    obtain ⟨bucket, inBefore, same⟩ := List.mem_map.mp mem
    exact stillUnnamed (same ▸ named bucket inBefore)
  have split : storeAll w table (before ++ (key, v) :: behind) =
      storeAll w ((storeAll w table before).update w (storedKey w key) v) behind := by
    simp [storeAll]
  intro same
  have stays := prefix_storeAll w ((storeAll w table before).update w (storedKey w key) v) behind
  rw [← split, same, keys_update, if_neg absent, front, map_append,
    List.prefix_append_right_inj, map_cons, List.cons_prefix_cons] at stays
  exact other stays.1

theorem storeAll_eq_iff {declared : HashTable V} {buckets : List (HashKey × V)}
    (distinct : (buckets.map Prod.fst).Nodup)
    (range : ∀ h, .index h ∈ buckets.map Prod.fst → w.longMin ≤ h ∧ h ≤ w.longMax)
    (plain : ∀ key ∈ declared.keys, Named w key) : (storeAll w declared buckets).buckets = buckets ↔
      (∀ bucket ∈ buckets, Named w bucket.1) ∧ declared.keys <+: buckets.map Prod.fst := by
  constructor
  · intro same
    have sameKeys : (storeAll w declared buckets).keys = buckets.map Prod.fst :=
      congrArg (List.map Prod.fst) same
    have first : declared.keys <+: buckets.map Prod.fst :=
      sameKeys ▸ prefix_storeAll w declared buckets
    refine ⟨?_, first⟩
    -- the keys from the front on
    have onward : ∀ behind before, buckets = before ++ behind →
        (∀ bucket ∈ before, Named w bucket.1) → ∀ bucket ∈ behind, Named w bucket.1 := by
      intro behind
      induction behind with
      | nil => simp
      | cons head behind ih =>
        obtain ⟨key, v⟩ := head
        intro before split named
        have here : Named w key := by
          by_contra unnamed
          have declaredBefore : declared.keys <+: before.map Prod.fst := by
            rw [split, map_append, map_cons] at first
            rcases List.prefix_or_prefix_of_prefix first (List.prefix_append _ _) with short | long
            · exact short
            · obtain ⟨more, whole⟩ := long
              cases more with
              | nil => exact ⟨[], by simpa using whole.symm⟩
              | cons next more =>
                rw [← whole, List.prefix_append_right_inj, List.cons_prefix_cons] at first
                exact absurd (plain key (whole ▸ by simp [first.1])) unnamed
          exact keys_storeAll_ne (split ▸ distinct) named unnamed
            (fun h same => range h (by simp [split, same])) declaredBefore (split ▸ sameKeys)
        intro bucket mem
        rcases List.mem_cons.mp mem with rfl | mem
        · exact here
        · refine ih (before ++ [(key, v)]) (by simp [split]) ?_ bucket mem
          exact List.forall_mem_append.mpr ⟨named, List.forall_mem_singleton.mpr here⟩
    exact onward buckets [] rfl (by simp)
  · rintro ⟨named, first⟩
    exact @buckets_storeAll _ w declared [] declared.buckets buckets rfl first
      (by simpa using distinct) named

/-! ## The round trip -/

theorem serializeKey_prefix (w : WordSize) (compact : Bool) (key : HashKey)
    (strings : List Bytes) : strings <+: (serializeKey w compact key strings).2 := by
  cases key with
  | index h => exact prefix_refl _
  | string s =>
    by_cases empty : s = []
    · simp [serializeKey, serializeString, empty]
    · cases met : (if compact then strings.findIdx? (· == s) else none) with
      | some id =>
        simp only [serializeKey, serializeString, if_neg empty, met]
        exact prefix_refl _
      | none =>
        simp only [serializeKey, serializeString, if_neg empty, met]
        exact List.prefix_append _ _

theorem unserializeKey_serializeKey {compact : Bool} {key : HashKey}
    {strings : List Bytes} (range : ∀ h, key = .index h → w.longMin ≤ h ∧ h ≤ w.longMax)
    (short : ∀ s, key = .string s → s.length < 2 ^ 32) (few : strings.length ≤ 2 ^ 32)
    (rest : Bytes) : unserializeKey w ((serializeKey w compact key strings).1 ++ rest) strings =
      some ((match key with | .index h => .index h | .string s => .string s), rest,
        (serializeKey w compact key strings).2) := by
  cases key with
  | index h => exact unserializeKey_long (range h rfl).1 (range h rfl).2
  | string s => exact unserializeKey_string compact (short s rfl) few

theorem length_serializeLong (w : WordSize) (l : Int) : 0 < (serializeLong w l).length := by
  unfold serializeLong
  simp only
  split
  · simp
  · split
    · simp
    · split <;> simp

theorem length_serializeSized (t8 t16 t32 : IgType) (n : Nat) :
    0 < (serializeSized t8 t16 t32 n).length := by
  unfold serializeSized
  split
  · simp
  · split <;> simp

theorem length_serializeKey (w : WordSize) (compact : Bool) (key : HashKey)
    (strings : List Bytes) : 0 < (serializeKey w compact key strings).1.length := by
  cases key with
  | index h => exact length_serializeLong w h
  | string s =>
    by_cases empty : s = []
    · simp [serializeKey, serializeString, empty]
    · cases met : (if compact then strings.findIdx? (· == s) else none) with
      | some id =>
        simp only [serializeKey, serializeString, if_neg empty, met]
        exact length_serializeSized _ _ _ _
      | none =>
        simp only [serializeKey, serializeString, if_neg empty, met, serializeChararray,
          length_append]
        exact Nat.lt_of_lt_of_le (length_serializeSized _ _ _ _) (Nat.le_add_right _ _)

theorem length_serializeElements (w : WordSize) (compact : Bool) (codec : ValueCodec V E D)
    (buckets : List (HashKey × V)) (strings : List Bytes) (e : E) :
    buckets.length ≤ (serializeElements w compact codec buckets strings e).1.length := by
  induction buckets generalizing strings e with
  | nil => exact Nat.zero_le _
  | cons bucket buckets ih =>
    obtain ⟨key, v⟩ := bucket
    have first := length_serializeKey w compact key strings
    have behind := ih (codec.serialize v (serializeKey w compact key strings).2 e).2.1
      (codec.serialize v (serializeKey w compact key strings).2 e).2.2
    change buckets.length + 1 ≤ (_ ++ (_ ++ _) : Bytes).length
    rw [length_append, length_append, Nat.add_comm]
    exact Nat.add_le_add first (Nat.le_trans behind (Nat.le_add_left _ _))

theorem unserializeElements_eq {compact : Bool} {codec : ValueCodec V E D}
    {paired : E → D → Prop} {buckets : List (HashKey × V)}
    (range : ∀ h, .index h ∈ buckets.map Prod.fst → w.longMin ≤ h ∧ h ≤ w.longMax)
    (short : ∀ s, .string s ∈ buckets.map Prod.fst → s.length < 2 ^ 32)
    (carried : ∀ bucket ∈ buckets, Carried codec paired bucket.2) {strings : List Bytes} {e : E}
    {d : D} (pair : paired e d)
    (few : (serializeElements w compact codec buckets strings e).2.1.length ≤ 2 ^ 32) :
    strings <+: (serializeElements w compact codec buckets strings e).2.1 ∧
    ∃ d', paired (serializeElements w compact codec buckets strings e).2.2 d' ∧
      ∀ rest table, unserializeElements w codec buckets.length
          ((serializeElements w compact codec buckets strings e).1 ++ rest) strings d table =
        some (storeAll w table buckets, rest,
          (serializeElements w compact codec buckets strings e).2.1, d') := by
  induction buckets generalizing strings e d with
  | nil => exact ⟨prefix_refl _, d, pair, fun rest table => rfl⟩
  | cons bucket buckets ih =>
    obtain ⟨key, v⟩ := bucket
    have keyPrefix := serializeKey_prefix w compact key strings
    obtain ⟨valuePrefix, d₁, pair₁, read⟩ := carried (key, v) (.head _)
      (serializeKey w compact key strings).2 e d pair
    simp only [serializeElements] at few ⊢
    obtain ⟨restPrefix, d₂, pair₂, readRest⟩ := @ih
      (fun h mem => range h (.tail _ mem))
      (fun s mem => short s (.tail _ mem))
      (fun other mem => carried other (.tail _ mem)) _ _ d₁ pair₁ few
    refine ⟨keyPrefix.trans (valuePrefix.trans restPrefix), d₂, pair₂, fun rest table => ?_⟩
    have fewStrings : strings.length ≤ 2 ^ 32 :=
      Nat.le_trans (keyPrefix.trans (valuePrefix.trans restPrefix)).length_le few
    have keyRead := @unserializeKey_serializeKey w compact key strings
      (fun h same => range h (by simp [same])) (fun s same => short s (by simp [same])) fewStrings
    rw [List.length_cons, unserializeElements, List.append_assoc, List.append_assoc, keyRead]
    cases key with
    | index h =>
      simp only [read, readRest]
      rfl
    | string s =>
      simp only [read, readRest]
      rfl

theorem unserializeArray_serializeArray {compact : Bool}
    {codec : ValueCodec V E D} {paired : E → D → Prop} {table : HashTable V}
    (range : ∀ h, .index h ∈ table.keys → w.longMin ≤ h ∧ h ≤ w.longMax)
    (short : ∀ s, .string s ∈ table.keys → s.length < 2 ^ 32) (size : table.numElements < 2 ^ 32)
    (carried : ∀ v ∈ table.values, Carried codec paired v) {strings : List Bytes} {e : E} {d : D}
    (pair : paired e d)
    (few : (serializeArray w compact codec table strings e).2.1.length ≤ 2 ^ 32) :
    ∃ d', paired (serializeArray w compact codec table strings e).2.2 d' ∧
      ∀ rest declared, unserializeArray w codec
          ((serializeArray w compact codec table strings e).1 ++ rest) strings d declared =
        some (storeAll w declared table.buckets, rest,
          (serializeArray w compact codec table strings e).2.1, d') := by
  have carriedAll : ∀ bucket ∈ table.buckets, Carried codec paired bucket.2 := fun bucket mem =>
    carried bucket.2 (List.mem_map_of_mem mem)
  obtain ⟨-, d', pair', read⟩ := unserializeElements_eq range short carriedAll pair few
  have long := length_serializeElements w compact codec table.buckets strings e
  refine ⟨d', pair', fun rest declared => ?_⟩
  obtain ⟨t, isArray, bytes, fits⟩ := @serializeSized_eq .array8 .array16 .array32 rfl rfl rfl
    table.numElements size
  have number := unserializeNumber_bigEndian fits
    ((serializeElements w compact codec table.buckets strings e).1 ++ rest)
  have enough : ¬ ((serializeElements w compact codec table.buckets strings e).1 ++ rest).length <
      table.numElements := by
    rw [length_append]
    simp only [HashTable.numElements]
    omega
  simp only [serializeArray, bytes]
  simp only [mem_cons, not_mem_nil, or_false] at isArray
  rcases isArray with rfl | rfl | rfl <;>
    simp only [unserializeArray, List.cons_append, List.append_assoc, IgType.ofByte_toByte,
      Option.getD_some, number, enough, if_false] <;>
    exact read rest declared

/-- The property table comes back, each value under a key of the same kind and spelling and in
the same order, exactly if every key is a string that is not the decimal notation of a long
and the declared properties stand first. -/
theorem unserialize_serialize_iff {w : WordSize} (compact : Bool) {codec : ValueCodec V E D}
    {paired : E → D → Prop} {table declared : HashTable V} (distinct : table.keys.Nodup)
    (range : ∀ h, .index h ∈ table.keys → w.longMin ≤ h ∧ h ≤ w.longMax)
    (short : ∀ s, .string s ∈ table.keys → s.length < 2 ^ 32) (size : table.numElements < 2 ^ 32)
    (carried : ∀ v ∈ table.values, Carried codec paired v)
    (plain : ∀ key ∈ declared.keys, Named w key) {strings : List Bytes} {e : E} {d : D}
    (pair : paired e d)
    (few : (serializeArray w compact codec table strings e).2.1.length ≤ 2 ^ 32) (rest : Bytes) :
    (∃ decoded strings' d', unserializeArray w codec
        ((serializeArray w compact codec table strings e).1 ++ rest) strings d declared =
          some (decoded, rest, strings', d') ∧ decoded.buckets = table.buckets) ↔
      (∀ key ∈ table.keys, Named w key) ∧ declared.keys <+: table.keys := by
  obtain ⟨d', -, read⟩ := unserializeArray_serializeArray range short size carried pair few
  have named : (∀ key ∈ table.keys, Named w key) ↔ ∀ bucket ∈ table.buckets, Named w bucket.1 := by
    simp [HashTable.keys]
  rw [named]
  refine Iff.trans ?_ (storeAll_eq_iff distinct range plain)
  constructor
  · rintro ⟨decoded, strings', d'', result, same⟩
    rw [read rest declared] at result
    cases result
    exact same
  · intro same
    exact ⟨_, _, _, read rest declared, same⟩

def boolCodec : ValueCodec Bool Unit Unit where
  serialize b strings e := ([(if b then IgType.boolTrue else .boolFalse).toByte], strings, e)
  unserialize bytes strings d :=
    match bytes with
    | [] => none
    | byte :: rest =>
      match IgType.ofByte byte with
      | some .boolTrue => some (true, rest, strings, d)
      | some .boolFalse => some (false, rest, strings, d)
      | _ => none

theorem carried_boolCodec (b : Bool) : Carried boolCodec (fun _ _ => True) b := by
  intro strings e d _
  refine ⟨prefix_refl _, (), trivial, fun rest => ?_⟩
  cases b <;> simp [boolCodec]

theorem unserialize_serialize_letters : ∃ decoded strings' d', unserializeArray .eight boolCodec
        ((serializeArray .eight true boolCodec
          ⟨[(.string [97], true), (.string [98], false)], 0⟩ [] ()).1 ++ []) [] ()
        ⟨[(.string [97], false)], 0⟩ = some (decoded, [], strings', d') ∧
      decoded.buckets = [(.string [97], true), (.string [98], false)] :=
  have named : ∀ key ∈ ([.string [97], .string [98]] : List HashKey), Named .eight key := by
    simp only [mem_cons, not_mem_nil, or_false, forall_eq_or_imp, forall_eq]
    exact ⟨⟨[97], rfl, by decide⟩, ⟨[98], rfl, by decide⟩⟩
  (@unserialize_serialize_iff Bool Unit Unit .eight true boolCodec (fun _ _ => True)
    ⟨[(.string [97], true), (.string [98], false)], 0⟩ ⟨[(.string [97], false)], 0⟩
    (by decide) (by simp [HashTable.keys]) (by simp [HashTable.keys]) (by decide)
    (fun v _ => carried_boolCodec v)
    (fun key mem => named key (by simp_all [HashTable.keys])) [] () () trivial (by decide) []).mpr
    ⟨named, by decide⟩

/-- The name `5` comes back as the integer, and the integer as the name. -/
theorem not_unserialize_serialize :
    (unserializeArray .eight boolCodec (serializeArray .eight true boolCodec
      ⟨[(.string [53], true)], 0⟩ [] ()).1 [] () ⟨[], 0⟩).map (·.1.buckets) =
        some [(.index 5, true)] ∧
    (unserializeArray .eight boolCodec (serializeArray .eight true boolCodec
      ⟨[(.index 5, true)], 6⟩ [] ()).1 [] () ⟨[], 0⟩).map (·.1.buckets) =
        some [(.string [53], true)] := by
  decide +kernel

end PhpExts.Igbinary.PropertyTable
