import PhpExts.Swoole.SerializeRoundTrip
import Mathlib

/-!
# Where unpacking reads

`php_swoole_unserialize` looks at the end marker of an array or an object, and from then on goes
where the counts, the lengths and the references in the string send it. Here only the places are
followed that it reads, not the values. A nested array or object that cannot be decoded gives no
cursor, and the loop over the entries tests for that; `swoole_unserialize_object` does not, and goes
through the properties of an array that has not been made.

The reading stays inside the string and uses no such array exactly if the string has the layout
`Layout`, in which whatever is announced is there (`unserialize_safe_iff`). In any case it comes to
an end (`terminates`).
-/

namespace PhpExts.Swoole.SerializeBounds

open Serialize (Bytes leNat keyType keyLen dataLen dataType lengthWidth)

/-- What puts an end to the reading: a byte outside of the string, an array that has not been
decoded, or that there is no end. -/
inductive Stop where
  | outside
  | undecoded
  | exhausted
  deriving DecidableEq

/-- Where the reading is, whether `unser_start` is the start of the string, and how many objects
have been made. -/
structure Scan where
  pos : Nat
  own : Bool
  objects : Nat
  deriving DecidableEq

/-- Whether the loading of a class, or the making of an object of it, unpacks another string:
`unser_start` is global. -/
structure ClassEntry where
  loading : Bool
  making : Bool

section

variable (whole : Bytes)

/-- The number some bytes at a place stand for. -/
def number (p n : Nat) : Nat := leNat ((whole.drop p).take n)

def read (p n : Nat) : Except Stop Nat :=
  if p + n ≤ whole.length then .ok (number whole p n) else .error .outside

/-- `zend_string_init`; no byte is read for an empty string. -/
def copy (p n : Nat) : Except Stop Bytes :=
  if n = 0 ∨ p + n ≤ whole.length then .ok ((whole.drop p).take n) else .error .outside

def packWidth (overhead : Nat) : Nat := if overhead &&& 4 ≠ 0 then 4 else 2

def arrayWidth (type : UInt8) : Nat :=
  if dataLen type = 1 then 1 else if dataLen type = 2 then 2 else 4

def longWidth (type : UInt8) : Nat :=
  if dataLen type = 0 then 1 else if dataLen type = 1 then 2 else if dataLen type = 2 then 4 else 8

/-- `get_pack_string_len_addr`, and the copy of the string. -/
def getPackString (scan : Scan) : Except Stop Scan := do
  let overhead ← read whole scan.pos 1
  let real ← read whole scan.pos (packWidth overhead)
  if scan.own then
    let addr := real >>> 3
    let width := lengthWidth (overhead &&& 3)
    let strlen ← read whole addr width
    let _ ← copy whole (addr + width) strlen
    .ok { scan with pos := scan.pos + packWidth overhead }
  else .error .outside

def getString (cls : Nat) (scan : Scan) : Except Stop Scan :=
  if cls = 3 then getPackString whole scan
  else do
    let strlen ← read whole scan.pos (lengthWidth cls)
    let _ ← copy whole (scan.pos + lengthWidth cls) strlen
    .ok { scan with pos := scan.pos + lengthWidth cls + strlen }

def getKey (type : UInt8) (scan : Scan) : Except Stop Scan :=
  if keyType type = 1 then getString whole (keyLen type) scan
  else if keyLen type = 0 then .ok scan
  else do
    let _ ← read whole scan.pos (lengthWidth (keyLen type))
    .ok { scan with pos := scan.pos + lengthWidth (keyLen type) }

end

/-- `cp_zend_hash_check_size`: a power of two, or zero. -/
def cpZendHashCheckSize (nSize : Nat) : Nat :=
  if nSize < 8 then 8 else if 2 ^ 31 ≤ nSize then 0 else nSize.nextPowerOfTwo

/-- The tests on the size of the table; the size of its hash part is an `int`. -/
def accepted (num : Nat) : Bool :=
  cpZendHashCheckSize num != 0 && decide (4 * cpZendHashCheckSize num < 2 ^ 31)

section

variable (whole : Bytes) (classes : Nat → Bytes → Option ClassEntry) (toStdClass : Bool)

def getArray (arr : Nat → Scan → Except Stop (Option Scan)) (type : UInt8) (scan : Scan) :
    Except Stop (Option Scan) := do
  let num ← read whole scan.pos (arrayWidth type)
  arr num { scan with pos := scan.pos + arrayWidth type }

def getName (p nameLen : Nat) : Except Stop Bytes :=
  if toStdClass then .ok [83, 116, 100, 67, 108, 97, 115, 115] else copy whole p nameLen

/-- `swoole_unserialize_object`. The class is looked up by its name, and can be a different one for
each object; the properties are gone through whether or not they have been decoded. -/
def swooleUnserializeObject (arr : Nat → Scan → Except Stop (Option Scan)) (type : UInt8)
    (scan : Scan) : Except Stop (Option Scan) := do
  let nameLen ← read whole scan.pos 2
  if nameLen = 0 then .ok none
  else
    let name ← getName whole toStdClass (scan.pos + 2) nameLen
    match classes scan.objects name with
    | none => .ok none
    | some ce =>
      let property ← getArray whole arr type
        ⟨scan.pos + 2 + nameLen, scan.own && !ce.loading, scan.objects + 1⟩
      match property with
      | none => .error .undecoded
      | some scan => .ok (some { scan with own := scan.own && !ce.making })

def getValue (arr : Nat → Scan → Except Stop (Option Scan)) (type : UInt8) (scan : Scan) :
    Except Stop (Option Scan) :=
  match dataType type with
  | 0 => swooleUnserializeObject whole classes toStdClass arr type scan
  | 4 => do
    let _ ← read whole scan.pos (longWidth type)
    .ok (some { scan with pos := scan.pos + longWidth type })
  | 5 => do
    let _ ← read whole scan.pos 8
    .ok (some { scan with pos := scan.pos + 8 })
  | 6 => do
    let scan ← getString whole (dataLen type) scan
    .ok (some scan)
  | 7 => getArray whole arr type scan
  | _ => .ok (some scan)

/-- The loop of `swoole_unserialize_arr` over the entries. -/
def entries (arr : Nat → Scan → Except Stop (Option Scan)) :
    Nat → Option Scan → Except Stop (Option Scan)
  | 0, cursor => .ok cursor
  | _ + 1, none => .ok none
  | num + 1, some scan => do
    let type ← read whole scan.pos 1
    let scan ← getKey whole (UInt8.ofNat type) { scan with pos := scan.pos + 1 }
    let cursor ← getValue whole classes toStdClass arr (UInt8.ofNat type) scan
    entries arr num cursor

/-- `swoole_unserialize_arr`, with a bound on how deep arrays are nested. -/
def swooleUnserializeArr : Nat → Nat → Scan → Except Stop (Option Scan)
  | 0, _, _ => .error .exhausted
  | fuel + 1, num, scan =>
    if accepted num then
      entries whole classes toStdClass (swooleUnserializeArr fuel) num (some scan)
    else .ok none

def swooleSeriaCheckEof : Except Stop Bool :=
  if whole.length < 3 then .error .outside
  else .ok (whole.drop (whole.length - 3) == [69, 79, 70])

/-- `php_swoole_unserialize`: whether it returns `SW_TRUE`. -/
def phpSwooleUnserialize : Except Stop Bool := do
  let type ← read whole 0 1
  let type := UInt8.ofNat type
  let arr := swooleUnserializeArr whole classes toStdClass (whole.length + 1)
  match dataType type with
  | 0 =>
    if ← swooleSeriaCheckEof whole then
      let cursor ← swooleUnserializeObject whole classes toStdClass arr type ⟨1, true, 0⟩
      .ok cursor.isSome
    else .ok false
  | 4 =>
    let _ ← read whole 1 (longWidth type)
    .ok true
  | 5 =>
    let _ ← read whole 1 8
    .ok true
  | 6 =>
    let _ ← copy whole 1 (whole.length - 1)
    .ok true
  | 7 =>
    if ← swooleSeriaCheckEof whole then
      let cursor ← getArray whole arr type ⟨1, true, 0⟩
      .ok cursor.isSome
    else .ok false
  | _ => .ok true

end

section

variable (whole : Bytes) (classes : Nat → Bytes → Option ClassEntry) (toStdClass : Bool)

def Inside (p n : Nat) : Prop := p + n ≤ whole.length

structure PackFits (scan : Scan) : Prop where
  reference : Inside whole scan.pos (packWidth (number whole scan.pos 1))
  own : scan.own = true
  length : Inside whole
    (number whole scan.pos (packWidth (number whole scan.pos 1)) >>> 3)
    (lengthWidth (number whole scan.pos 1 &&& 3))
  bytes :
    let addr := number whole scan.pos (packWidth (number whole scan.pos 1)) >>> 3
    let width := lengthWidth (number whole scan.pos 1 &&& 3)
    number whole addr width = 0 ∨ Inside whole (addr + width) (number whole addr width)

inductive StringFits (cls : Nat) (scan : Scan) : Scan → Prop where
  | reference (is_reference : cls = 3) (fits : PackFits whole scan) :
      StringFits cls scan
        { scan with pos := scan.pos + packWidth (number whole scan.pos 1) }
  | bytes (not_reference : cls ≠ 3) (length : Inside whole scan.pos (lengthWidth cls))
      (fits : number whole scan.pos (lengthWidth cls) = 0 ∨
        Inside whole (scan.pos + lengthWidth cls) (number whole scan.pos (lengthWidth cls))) :
      StringFits cls scan
        { scan with pos :=
            scan.pos + lengthWidth cls + number whole scan.pos (lengthWidth cls) }

inductive KeyFits (type : UInt8) (scan : Scan) : Scan → Prop where
  | string {scan' : Scan} (is_string : keyType type = 1)
      (fits : StringFits whole (keyLen type) scan scan') : KeyFits type scan scan'
  | pack (is_index : keyType type ≠ 1) (no_number : keyLen type = 0) : KeyFits type scan scan
  | index (is_index : keyType type ≠ 1) (numbered : keyLen type ≠ 0)
      (fits : Inside whole scan.pos (lengthWidth (keyLen type))) :
      KeyFits type scan { scan with pos := scan.pos + lengthWidth (keyLen type) }

def className (scan : Scan) : Bytes :=
  if toStdClass then [83, 116, 100, 67, 108, 97, 115, 115]
  else (whole.drop (scan.pos + 2)).take (number whole scan.pos 2)

inductive Item where
  | array (num : Nat)
  | entries (num : Nat)
  | value (type : UInt8)

/-- From one place there is an item, up to another one, or up to something that is refused. -/
inductive Fits : Item → Scan → Option Scan → Prop where
  | array {num : Nat} {scan : Scan} {cursor : Option Scan} (accept : accepted num = true)
      (fits : Fits (.entries num) scan cursor) : Fits (.array num) scan cursor
  | refused {num : Nat} {scan : Scan} (refuse : accepted num = false) :
      Fits (.array num) scan none
  | done {scan : Scan} : Fits (.entries 0) scan (some scan)
  | entry {num : Nat} {scan key value : Scan} {cursor : Option Scan}
      (type : Inside whole scan.pos 1)
      (key_fits : KeyFits whole (UInt8.ofNat (number whole scan.pos 1))
        { scan with pos := scan.pos + 1 } key)
      (value_fits : Fits (.value (UInt8.ofNat (number whole scan.pos 1))) key (some value))
      (fits : Fits (.entries num) value cursor) : Fits (.entries (num + 1)) scan cursor
  | failed {num : Nat} {scan key : Scan} (type : Inside whole scan.pos 1)
      (key_fits : KeyFits whole (UInt8.ofNat (number whole scan.pos 1))
        { scan with pos := scan.pos + 1 } key)
      (value_fits : Fits (.value (UInt8.ofNat (number whole scan.pos 1))) key none) :
      Fits (.entries (num + 1)) scan none
  | plain {type : UInt8} {scan : Scan} (is_plain : dataType type ∈ [1, 2, 3]) :
      Fits (.value type) scan (some scan)
  | long {type : UInt8} {scan : Scan} (is_long : dataType type = 4)
      (fits : Inside whole scan.pos (longWidth type)) :
      Fits (.value type) scan (some { scan with pos := scan.pos + longWidth type })
  | double {type : UInt8} {scan : Scan} (is_double : dataType type = 5)
      (fits : Inside whole scan.pos 8) :
      Fits (.value type) scan (some { scan with pos := scan.pos + 8 })
  | string {type : UInt8} {scan scan' : Scan} (is_string : dataType type = 6)
      (fits : StringFits whole (dataLen type) scan scan') :
      Fits (.value type) scan (some scan')
  | nested {type : UInt8} {scan : Scan} {cursor : Option Scan} (is_array : dataType type = 7)
      (count : Inside whole scan.pos (arrayWidth type))
      (fits : Fits (.array (number whole scan.pos (arrayWidth type)))
        { scan with pos := scan.pos + arrayWidth type } cursor) : Fits (.value type) scan cursor
  | nameless {type : UInt8} {scan : Scan} (is_object : dataType type = 0)
      (length : Inside whole scan.pos 2) (no_name : number whole scan.pos 2 = 0) :
      Fits (.value type) scan none
  | unknown {type : UInt8} {scan : Scan} (is_object : dataType type = 0)
      (length : Inside whole scan.pos 2) (named : number whole scan.pos 2 ≠ 0)
      (name : toStdClass = true ∨ Inside whole (scan.pos + 2) (number whole scan.pos 2))
      (no_class : classes scan.objects (className whole toStdClass scan) = none) :
      Fits (.value type) scan none
  | object {type : UInt8} {scan scan' : Scan} {ce : ClassEntry} (is_object : dataType type = 0)
      (length : Inside whole scan.pos 2) (named : number whole scan.pos 2 ≠ 0)
      (name : toStdClass = true ∨ Inside whole (scan.pos + 2) (number whole scan.pos 2))
      (the_class : classes scan.objects (className whole toStdClass scan) = some ce)
      (count : Inside whole (scan.pos + 2 + number whole scan.pos 2) (arrayWidth type))
      (fits : Fits
        (.array (number whole (scan.pos + 2 + number whole scan.pos 2) (arrayWidth type)))
        ⟨scan.pos + 2 + number whole scan.pos 2 + arrayWidth type, scan.own && !ce.loading,
          scan.objects + 1⟩ (some scan')) :
      Fits (.value type) scan (some { scan' with own := scan'.own && !ce.making })

inductive Decodes : Item → Scan → Scan → Prop where
  | array {num : Nat} {scan scan' : Scan} (accept : accepted num = true)
      (decodes : Decodes (.entries num) scan scan') : Decodes (.array num) scan scan'
  | done {scan : Scan} : Decodes (.entries 0) scan scan
  | entry {num : Nat} {scan key value scan' : Scan} (type : Inside whole scan.pos 1)
      (key_fits : KeyFits whole (UInt8.ofNat (number whole scan.pos 1))
        { scan with pos := scan.pos + 1 } key)
      (value_decodes : Decodes (.value (UInt8.ofNat (number whole scan.pos 1))) key value)
      (decodes : Decodes (.entries num) value scan') : Decodes (.entries (num + 1)) scan scan'
  | scalar {type : UInt8} {scan scan' : Scan} (not_object : dataType type ≠ 0)
      (not_array : dataType type ≠ 7)
      (fits : Fits whole classes toStdClass (.value type) scan (some scan')) :
      Decodes (.value type) scan scan'
  | nested {type : UInt8} {scan scan' : Scan} (is_array : dataType type = 7)
      (count : Inside whole scan.pos (arrayWidth type))
      (decodes : Decodes (.array (number whole scan.pos (arrayWidth type)))
        { scan with pos := scan.pos + arrayWidth type } scan') : Decodes (.value type) scan scan'
  | object {type : UInt8} {scan scan' : Scan} {ce : ClassEntry} (is_object : dataType type = 0)
      (named : number whole scan.pos 2 ≠ 0)
      (the_class : classes scan.objects (className whole toStdClass scan) = some ce)
      (count : Inside whole (scan.pos + 2 + number whole scan.pos 2) (arrayWidth type))
      (decodes : Decodes
        (.array (number whole (scan.pos + 2 + number whole scan.pos 2) (arrayWidth type)))
        ⟨scan.pos + 2 + number whole scan.pos 2 + arrayWidth type, scan.own && !ce.loading,
          scan.objects + 1⟩ scan') :
      Decodes (.value type) scan { scan' with own := scan'.own && !ce.making }

def Decoded : Prop :=
  let type := UInt8.ofNat (number whole 0 1)
  dataType type = 0 ∨ dataType type = 7 →
    ∃ scan', Decodes whole classes toStdClass (.value type) ⟨1, true, 0⟩ scan'

/-- The reading comes to an end, inside the string and without an array that has not been decoded,
and where something nested does not decode the call fails. -/
def Safe : Prop :=
  ∃ ret, phpSwooleUnserialize whole classes toStdClass = .ok ret ∧
    (ret = true → Decoded whole classes toStdClass)

/-- Whatever the string announces is there: the type, a number of the announced size, or, between
the type and the end marker, the entries of an array or of the properties of an object. -/
def Layout : Prop :=
  Inside whole 0 1 ∧
    let type := UInt8.ofNat (number whole 0 1)
    (dataType type = 4 → Inside whole 1 (longWidth type)) ∧
    (dataType type = 5 → Inside whole 1 8) ∧
    (dataType type = 0 ∨ dataType type = 7 → 3 ≤ whole.length ∧
      (whole.drop (whole.length - 3) = [69, 79, 70] →
        ∃ cursor, Fits whole classes toStdClass (.value type) ⟨1, true, 0⟩ cursor))

end

/-! ## The reading follows the layout -/

variable {whole : Bytes} {classes : Nat → Bytes → Option ClassEntry} {toStdClass : Bool}
  {arr : Nat → Scan → Except Stop (Option Scan)} {type : UInt8} {scan scan' : Scan}
  {cursor : Option Scan}

theorem bind_ok_iff {α β : Type} {x : Except Stop α} {f : α → Except Stop β} {b : β} :
    (x >>= f) = .ok b ↔ ∃ a, x = .ok a ∧ f a = .ok b := by
  cases x with
  | error stop =>
    constructor
    · intro absurd_ok
      cases absurd_ok
    · rintro ⟨a, absurd_ok, -⟩
      cases absurd_ok
  | ok a =>
    constructor
    · intro ok
      exact ⟨a, rfl, ok⟩
    · rintro ⟨a', same, ok⟩
      cases same
      exact ok

theorem read_ok_iff {p n value : Nat} :
    read whole p n = .ok value ↔ Inside whole p n ∧ value = number whole p n := by
  rw [read]
  split_ifs with fits
  · rw [Except.ok.injEq]
    exact ⟨fun same => ⟨fits, same.symm⟩, fun same => same.2.symm⟩
  · exact ⟨fun absurd_ok => (nomatch absurd_ok), fun inside => absurd inside.1 fits⟩

theorem copy_ok_iff {p n : Nat} {bytes : Bytes} : copy whole p n = .ok bytes ↔
      (n = 0 ∨ Inside whole p n) ∧ bytes = (whole.drop p).take n := by
  rw [copy]
  split_ifs with fits
  · rw [Except.ok.injEq]
    exact ⟨fun same => ⟨fits, same.symm⟩, fun same => same.2.symm⟩
  · exact ⟨fun absurd_ok => (nomatch absurd_ok), fun inside => absurd inside.1 fits⟩

theorem two_le_packWidth (overhead : Nat) : 2 ≤ packWidth overhead := by
  rw [packWidth]
  split_ifs <;> omega

theorem getPackString_ok_iff : getPackString whole scan = .ok scan' ↔ PackFits whole scan ∧
      scan' = { scan with pos := scan.pos + packWidth (number whole scan.pos 1) } := by
  rw [getPackString]
  simp only [bind_ok_iff, read_ok_iff]
  constructor
  · rintro ⟨overhead, ⟨-, rfl⟩, real, ⟨reference, rfl⟩, ok⟩
    split_ifs at ok with own
    · simp only [bind_ok_iff, read_ok_iff, copy_ok_iff] at ok
      obtain ⟨strlen, ⟨length, rfl⟩, bytes, ⟨fits, rfl⟩, ok⟩ := ok
      cases ok
      exact ⟨⟨reference, own, length, fits⟩, rfl⟩
  · rintro ⟨fits, rfl⟩
    have first : Inside whole scan.pos 1 := by
      have := two_le_packWidth (number whole scan.pos 1)
      have := fits.reference
      rw [Inside] at this ⊢
      omega
    refine ⟨_, ⟨first, rfl⟩, _, ⟨fits.reference, rfl⟩, ?_⟩
    rw [if_pos fits.own]
    simp only [bind_ok_iff, read_ok_iff, copy_ok_iff]
    exact ⟨_, ⟨fits.length, rfl⟩, _, ⟨fits.bytes, rfl⟩, trivial⟩

theorem getString_ok_iff {cls : Nat} :
    getString whole cls scan = .ok scan' ↔ StringFits whole cls scan scan' := by
  rw [getString]
  split_ifs with is_reference
  · rw [getPackString_ok_iff]
    constructor
    · rintro ⟨fits, rfl⟩
      exact .reference is_reference fits
    · intro fits
      cases fits with
      | reference _ fits => exact ⟨fits, rfl⟩
      | bytes not_reference => exact absurd is_reference not_reference
  · simp only [bind_ok_iff, read_ok_iff, copy_ok_iff]
    constructor
    · rintro ⟨strlen, ⟨length, rfl⟩, bytes, ⟨fits, rfl⟩, ok⟩
      cases ok
      exact .bytes is_reference length fits
    · intro fits
      cases fits with
      | reference reference => exact absurd reference is_reference
      | bytes _ length fits => exact ⟨_, ⟨length, rfl⟩, _, ⟨fits, rfl⟩, rfl⟩

theorem getKey_ok_iff : getKey whole type scan = .ok scan' ↔ KeyFits whole type scan scan' := by
  rw [getKey]
  split_ifs with is_string none
  · rw [getString_ok_iff]
    constructor
    · exact .string is_string
    · intro fits
      cases fits with
      | string _ fits => exact fits
      | pack is_index => exact absurd is_string is_index
      | index is_index => exact absurd is_string is_index
  · constructor
    · intro ok
      cases ok
      exact .pack is_string none
    · intro fits
      cases fits with
      | string is_string' => exact absurd is_string' is_string
      | pack => rfl
      | index _ some => exact absurd none some
  · simp only [bind_ok_iff, read_ok_iff]
    constructor
    · rintro ⟨h, ⟨fits, rfl⟩, ok⟩
      cases ok
      exact .index is_string none fits
    · intro fits
      cases fits with
      | string is_string' => exact absurd is_string' is_string
      | pack _ none' => exact absurd none' none
      | index _ _ fits => exact ⟨_, ⟨fits, rfl⟩, rfl⟩

/-! ### Values -/

theorem getArray_ok_iff : getArray whole arr type scan = .ok cursor ↔
    Inside whole scan.pos (arrayWidth type) ∧ arr (number whole scan.pos (arrayWidth type))
        { scan with pos := scan.pos + arrayWidth type } = .ok cursor := by
  rw [getArray]
  simp only [bind_ok_iff, read_ok_iff]
  constructor
  · rintro ⟨num, ⟨count, rfl⟩, ok⟩
    exact ⟨count, ok⟩
  · rintro ⟨count, ok⟩
    exact ⟨_, ⟨count, rfl⟩, ok⟩

theorem getName_ok_iff {name : Bytes} :
    getName whole toStdClass (scan.pos + 2) (number whole scan.pos 2) = .ok name ↔
      (toStdClass = true ∨ number whole scan.pos 2 = 0 ∨
        Inside whole (scan.pos + 2) (number whole scan.pos 2)) ∧
      name = className whole toStdClass scan := by
  rw [className, getName]
  cases toStdClass with
  | true =>
    rw [if_pos rfl, if_pos rfl, Except.ok.injEq]
    exact ⟨fun same => ⟨.inl rfl, same.symm⟩, fun same => same.2.symm⟩
  | false =>
    rw [if_neg Bool.false_ne_true, if_neg Bool.false_ne_true, copy_ok_iff]
    simp only [Bool.false_eq_true, false_or]

theorem swooleUnserializeObject_ok_iff :
    swooleUnserializeObject whole classes toStdClass arr type scan = .ok cursor ↔
      Inside whole scan.pos 2 ∧ ((number whole scan.pos 2 = 0 ∧ cursor = none) ∨
          number whole scan.pos 2 ≠ 0 ∧
            (toStdClass = true ∨ Inside whole (scan.pos + 2) (number whole scan.pos 2)) ∧
            ((classes scan.objects (className whole toStdClass scan) = none ∧ cursor = none) ∨
              ∃ ce scan', classes scan.objects (className whole toStdClass scan) = some ce ∧
                getArray whole arr type ⟨scan.pos + 2 + number whole scan.pos 2,
                  scan.own && !ce.loading, scan.objects + 1⟩ = .ok (some scan') ∧
                cursor = some { scan' with own := scan'.own && !ce.making })) := by
  rw [swooleUnserializeObject]
  simp only [bind_ok_iff, read_ok_iff]
  constructor
  · rintro ⟨nameLen, ⟨length, rfl⟩, ok⟩
    refine ⟨length, ?_⟩
    by_cases nameless : number whole scan.pos 2 = 0
    · rw [if_pos nameless] at ok
      cases ok
      exact .inl ⟨nameless, rfl⟩
    · rw [if_neg nameless, bind_ok_iff] at ok
      obtain ⟨name, is_name, ok⟩ := ok
      obtain ⟨inside, rfl⟩ := getName_ok_iff.1 is_name
      refine .inr ⟨nameless, inside.imp_right fun read => read.resolve_left nameless, ?_⟩
      cases the_class : classes scan.objects (className whole toStdClass scan) with
      | none =>
        simp only [the_class] at ok
        cases ok
        exact .inl ⟨rfl, rfl⟩
      | some ce =>
        simp only [the_class, bind_ok_iff] at ok
        obtain ⟨property, decoded, ok⟩ := ok
        cases property with
        | none => cases ok
        | some scan' =>
          cases ok
          exact .inr ⟨ce, scan', rfl, decoded, rfl⟩
  · rintro ⟨length, ⟨nameless, rfl⟩ | ⟨named, inside, outcome⟩⟩
    · exact ⟨_, ⟨length, rfl⟩, by rw [if_pos nameless]⟩
    · refine ⟨_, ⟨length, rfl⟩, ?_⟩
      rw [if_neg named, bind_ok_iff]
      refine ⟨_, getName_ok_iff.2 ⟨inside.imp_right .inr, rfl⟩, ?_⟩
      rcases outcome with ⟨no_class, rfl⟩ | ⟨ce, scan', the_class, decoded, rfl⟩
      · simp only [no_class]
      · simp only [the_class, bind_ok_iff]
        exact ⟨_, decoded, rfl⟩

theorem Fits.scalar_iff (not_object : dataType type ≠ 0) (not_array : dataType type ≠ 7) :
    Fits whole classes toStdClass (.value type) scan cursor ↔
      (dataType type ∈ [1, 2, 3] ∧ some scan = cursor) ∨
        (dataType type = 4 ∧ Inside whole scan.pos (longWidth type) ∧
          some { scan with pos := scan.pos + longWidth type } = cursor) ∨
        (dataType type = 5 ∧ Inside whole scan.pos 8 ∧
          some { scan with pos := scan.pos + 8 } = cursor) ∨
        (dataType type = 6 ∧
          ∃ scan', StringFits whole (dataLen type) scan scan' ∧ some scan' = cursor) := by
  constructor
  · intro fits
    cases fits with
    | plain is_plain => exact .inl ⟨is_plain, rfl⟩
    | long is_long fits => exact .inr (.inl ⟨is_long, fits, rfl⟩)
    | double is_double fits => exact .inr (.inr (.inl ⟨is_double, fits, rfl⟩))
    | string is_string fits => exact .inr (.inr (.inr ⟨is_string, _, fits, rfl⟩))
    | nested is_array => exact absurd is_array not_array
    | nameless is_object => exact absurd is_object not_object
    | unknown is_object => exact absurd is_object not_object
    | object is_object => exact absurd is_object not_object
  · rintro (⟨is_plain, rfl⟩ | ⟨is_long, fits, rfl⟩ | ⟨is_double, fits, rfl⟩ |
      ⟨is_string, scan', fits, rfl⟩)
    · exact .plain is_plain
    · exact .long is_long fits
    · exact .double is_double fits
    · exact .string is_string fits

theorem getValue_plain_ok_iff (not_object : dataType type ≠ 0) (not_array : dataType type ≠ 7) :
    getValue whole classes toStdClass arr type scan = .ok cursor ↔
      Fits whole classes toStdClass (.value type) scan cursor := by
  have bound : dataType type < 8 := by
    have := type.toNat_lt
    rw [dataType]
    omega
  have kinds : dataType type = 1 ∨ dataType type = 2 ∨ dataType type = 3 ∨ dataType type = 4 ∨
      dataType type = 5 ∨ dataType type = 6 := by
    omega
  rw [Fits.scalar_iff not_object not_array, getValue]
  rcases kinds with type_eq | type_eq | type_eq | type_eq | type_eq | type_eq <;>
  simp [type_eq, bind_ok_iff, read_ok_iff, getString_ok_iff]

theorem getArray_fits (sound : ∀ {num scan cursor}, arr num scan = .ok cursor →
      Fits whole classes toStdClass (.array num) scan cursor)
    (ok : getArray whole arr type scan = .ok cursor) (is_array : dataType type = 7) :
    Fits whole classes toStdClass (.value type) scan cursor := by
  obtain ⟨count, ok⟩ := getArray_ok_iff.1 ok
  exact .nested is_array count (sound ok)

theorem swooleUnserializeObject_fits (sound : ∀ {num scan cursor}, arr num scan = .ok cursor →
      Fits whole classes toStdClass (.array num) scan cursor)
    (ok : swooleUnserializeObject whole classes toStdClass arr type scan = .ok cursor)
    (is_object : dataType type = 0) : Fits whole classes toStdClass (.value type) scan cursor := by
  obtain ⟨length, ⟨no_name, rfl⟩ | ⟨named, name, ⟨no_class, rfl⟩ |
    ⟨ce, scan', the_class, decoded, rfl⟩⟩⟩ := swooleUnserializeObject_ok_iff.1 ok
  · exact .nameless is_object length no_name
  · exact .unknown is_object length named name no_class
  · obtain ⟨count, decoded⟩ := getArray_ok_iff.1 decoded
    exact .object is_object length named name the_class count (sound decoded)

theorem getValue_fits (sound : ∀ {num scan cursor}, arr num scan = .ok cursor →
      Fits whole classes toStdClass (.array num) scan cursor)
    (ok : getValue whole classes toStdClass arr type scan = .ok cursor) :
    Fits whole classes toStdClass (.value type) scan cursor := by
  by_cases is_object : dataType type = 0
  · rw [getValue, is_object] at ok
    exact swooleUnserializeObject_fits sound ok is_object
  · by_cases is_array : dataType type = 7
    · rw [getValue, is_array] at ok
      exact getArray_fits sound ok is_array
    · exact (getValue_plain_ok_iff is_object is_array).1 ok

theorem entries_fits (sound : ∀ {num scan cursor}, arr num scan = .ok cursor →
      Fits whole classes toStdClass (.array num) scan cursor) {num : Nat}
    (ok : entries whole classes toStdClass arr num (some scan) = .ok cursor) :
    Fits whole classes toStdClass (.entries num) scan cursor := by
  induction num generalizing scan with
  | zero =>
    cases ok
    exact .done
  | succ num ih =>
    rw [entries] at ok
    simp only [bind_ok_iff, read_ok_iff, getKey_ok_iff] at ok
    obtain ⟨type, ⟨inside, rfl⟩, key, key_fits, value, value_ok, ok⟩ := ok
    have value_fits := getValue_fits sound value_ok
    cases value with
    | none =>
      have same : cursor = none := by
        cases num <;> cases ok <;> rfl
      rw [same]
      exact .failed inside key_fits value_fits
    | some value => exact .entry inside key_fits value_fits (ih ok)

theorem swooleUnserializeArr_fits {fuel num : Nat}
    (ok : swooleUnserializeArr whole classes toStdClass fuel num scan = .ok cursor) :
    Fits whole classes toStdClass (.array num) scan cursor := by
  induction fuel generalizing num scan cursor with
  | zero => cases ok
  | succ fuel ih =>
    rw [swooleUnserializeArr] at ok
    split_ifs at ok with accept
    · exact .array accept (entries_fits ih ok)
    · cases ok
      exact .refused (Bool.eq_false_iff.2 accept)

/-! ### The other way round -/

theorem StringFits.le {cls : Nat} (fits : StringFits whole cls scan scan') :
    scan.pos ≤ scan'.pos := by
  cases fits with
  | reference => exact Nat.le_add_right _ _
  | bytes => exact Nat.le_trans (Nat.le_add_right _ _) (Nat.le_add_right _ _)

theorem KeyFits.le (fits : KeyFits whole type scan scan') : scan.pos ≤ scan'.pos := by
  cases fits with
  | string _ fits => exact fits.le
  | pack => exact Nat.le_refl _
  | index => exact Nat.le_add_right _ _

theorem Fits.le {item : Item} (fits : Fits whole classes toStdClass item scan cursor) :
    ∀ scan', cursor = some scan' → scan.pos ≤ scan'.pos := by
  induction fits with
  | array _ _ ih => exact ih
  | refused => exact fun _ absurd_some => nomatch absurd_some
  | done =>
    rintro scan' same
    cases same
    exact Nat.le_refl _
  | entry _ key_fits _ _ ih_value ih =>
    intro scan' same
    have := key_fits.le
    have := ih_value _ rfl
    have := ih scan' same
    simp only at *
    omega
  | failed => exact fun _ absurd_some => nomatch absurd_some
  | plain =>
    rintro scan' same
    cases same
    exact Nat.le_refl _
  | long =>
    rintro scan' same
    cases same
    exact Nat.le_add_right _ _
  | double =>
    rintro scan' same
    cases same
    exact Nat.le_add_right _ _
  | string _ fits =>
    rintro scan' same
    cases same
    exact fits.le
  | nested _ _ _ ih => exact fun scan' same => Nat.le_trans (Nat.le_add_right _ _) (ih scan' same)
  | nameless => exact fun _ absurd_some => nomatch absurd_some
  | unknown => exact fun _ absurd_some => nomatch absurd_some
  | object _ _ _ _ _ _ _ ih =>
    rintro scan' same
    cases same
    have := ih _ rfl
    simp only at *
    omega

/-- The reading of an item, with enough levels left for what can be nested in the rest of the
string. -/
def Computes (whole : Bytes) (classes : Nat → Bytes → Option ClassEntry) (toStdClass : Bool)
    (scan : Scan) (cursor : Option Scan) : Item → Prop
  | .array num => ∀ fuel, scan.pos ≤ whole.length → whole.length < fuel + scan.pos →
      swooleUnserializeArr whole classes toStdClass fuel num scan = .ok cursor
  | .entries num => ∀ fuel, whole.length ≤ fuel + scan.pos →
      entries whole classes toStdClass (swooleUnserializeArr whole classes toStdClass fuel) num
        (some scan) = .ok cursor
  | .value type => ∀ fuel, whole.length < fuel + scan.pos →
      getValue whole classes toStdClass (swooleUnserializeArr whole classes toStdClass fuel) type
        scan = .ok cursor

theorem Fits.computes {item : Item} (fits : Fits whole classes toStdClass item scan cursor) :
    Computes whole classes toStdClass scan cursor item := by
  induction fits with
  | array accept _ ih =>
    intro fuel inside enough
    obtain ⟨fuel, rfl⟩ := Nat.exists_eq_add_of_lt (show 0 < fuel by omega)
    rw [Nat.zero_add, swooleUnserializeArr, if_pos accept]
    exact ih fuel (by omega)
  | refused refuse =>
    intro fuel inside enough
    obtain ⟨fuel, rfl⟩ := Nat.exists_eq_add_of_lt (show 0 < fuel by omega)
    rw [Nat.zero_add, swooleUnserializeArr, if_neg (Bool.eq_false_iff.1 refuse)]
  | done => exact fun _ _ => rfl
  | @entry num scan key value cursor inside key_fits value_fits _ ih_value ih =>
    intro fuel enough
    have after_key := key_fits.le
    have after_value := value_fits.le _ rfl
    simp only at after_key
    rw [entries]
    simp only [bind_ok_iff, read_ok_iff, getKey_ok_iff]
    exact ⟨_, ⟨inside, rfl⟩, key, key_fits, some value, ih_value fuel (by omega),
      ih fuel (by omega)⟩
  | @failed num scan key inside key_fits _ ih_value =>
    intro fuel enough
    have after_key := key_fits.le
    simp only at after_key
    rw [entries]
    simp only [bind_ok_iff, read_ok_iff, getKey_ok_iff]
    refine ⟨_, ⟨inside, rfl⟩, key, key_fits, none, ih_value fuel (by omega), ?_⟩
    cases num <;> rfl
  | plain is_plain =>
    intro fuel _
    have not_object := ne_of_mem_of_not_mem is_plain (show 0 ∉ [1, 2, 3] by decide)
    have not_array := ne_of_mem_of_not_mem is_plain (show 7 ∉ [1, 2, 3] by decide)
    exact (getValue_plain_ok_iff not_object not_array).2 (.plain is_plain)
  | long is_long fits =>
    intro fuel _
    exact (getValue_plain_ok_iff (by rw [is_long]; decide) (by rw [is_long]; decide)).2
      (.long is_long fits)
  | double is_double fits =>
    intro fuel _
    exact (getValue_plain_ok_iff (by rw [is_double]; decide) (by rw [is_double]; decide)).2
      (.double is_double fits)
  | string is_string fits =>
    intro fuel _
    exact (getValue_plain_ok_iff (by rw [is_string]; decide) (by rw [is_string]; decide)).2
      (.string is_string fits)
  | nested is_array count _ ih =>
    intro fuel enough
    rw [Inside] at count
    rw [getValue, is_array]
    exact getArray_ok_iff.2 ⟨count, ih fuel count (by simp only; omega)⟩
  | nameless is_object length no_name =>
    intro fuel _
    rw [getValue, is_object]
    exact swooleUnserializeObject_ok_iff.2 ⟨length, .inl ⟨no_name, rfl⟩⟩
  | unknown is_object length named name no_class =>
    intro fuel _
    rw [getValue, is_object]
    exact swooleUnserializeObject_ok_iff.2
      ⟨length, .inr ⟨named, name, .inl ⟨no_class, rfl⟩⟩⟩
  | object is_object length named name the_class count _ ih =>
    intro fuel enough
    rw [Inside] at count
    rw [getValue, is_object]
    exact swooleUnserializeObject_ok_iff.2 ⟨length, .inr ⟨named, name, .inr ⟨_, _, the_class,
      getArray_ok_iff.2 ⟨count, ih fuel count (by simp only; omega)⟩, rfl⟩⟩⟩

/-! ### The end of the reading -/

theorem bind_ne_exhausted {α β : Type} {x : Except Stop α} {f : α → Except Stop β}
    (first : x ≠ .error .exhausted) (second : ∀ a, x = .ok a → f a ≠ .error .exhausted) :
    (x >>= f) ≠ .error .exhausted := by
  cases x with
  | error stop =>
    intro same
    cases same
    exact first rfl
  | ok a => exact second a rfl

theorem ok_ne_exhausted {α : Type} (a : α) : (.ok a : Except Stop α) ≠ .error .exhausted := by
  intro same
  cases same

theorem read_ne_exhausted (p n : Nat) : read whole p n ≠ .error .exhausted := by
  rw [read]
  split_ifs
  · exact ok_ne_exhausted _
  · decide

theorem copy_ne_exhausted (p n : Nat) : copy whole p n ≠ .error .exhausted := by
  rw [copy]
  split_ifs
  · exact ok_ne_exhausted _
  · decide

theorem getString_ne_exhausted (cls : Nat) (scan : Scan) :
    getString whole cls scan ≠ .error .exhausted := by
  rw [getString]
  split_ifs
  · apply bind_ne_exhausted (read_ne_exhausted _ _)
    intro overhead _
    apply bind_ne_exhausted (read_ne_exhausted _ _)
    intro real _
    split_ifs
    · apply bind_ne_exhausted (read_ne_exhausted _ _)
      intro strlen _
      apply bind_ne_exhausted (copy_ne_exhausted _ _)
      intro bytes _
      exact ok_ne_exhausted _
    · decide
  · apply bind_ne_exhausted (read_ne_exhausted _ _)
    intro strlen _
    apply bind_ne_exhausted (copy_ne_exhausted _ _)
    intro bytes _
    exact ok_ne_exhausted _

theorem getKey_ne_exhausted (type : UInt8) (scan : Scan) :
    getKey whole type scan ≠ .error .exhausted := by
  rw [getKey]
  split_ifs
  · exact getString_ne_exhausted _ _
  · exact ok_ne_exhausted _
  · apply bind_ne_exhausted (read_ne_exhausted _ _)
    intro h _
    exact ok_ne_exhausted _

def Ends (whole : Bytes) (arr : Nat → Scan → Except Stop (Option Scan)) (pos : Nat) : Prop :=
  ∀ num scan, pos ≤ scan.pos → scan.pos ≤ whole.length → arr num scan ≠ .error .exhausted

theorem getArray_ne_exhausted (ends : Ends whole arr scan.pos) (type : UInt8) :
    getArray whole arr type scan ≠ .error .exhausted := by
  apply bind_ne_exhausted (read_ne_exhausted _ _)
  intro num ok
  exact ends _ _ (Nat.le_add_right _ _) (read_ok_iff.1 ok).1

theorem swooleUnserializeObject_ne_exhausted (ends : Ends whole arr scan.pos) (type : UInt8) :
    swooleUnserializeObject whole classes toStdClass arr type scan ≠ .error .exhausted := by
  apply bind_ne_exhausted (read_ne_exhausted _ _)
  intro nameLen _
  split_ifs
  · exact ok_ne_exhausted _
  · apply bind_ne_exhausted
    · rw [getName]
      split_ifs
      · exact ok_ne_exhausted _
      · exact copy_ne_exhausted _ _
    · intro name _
      cases classes scan.objects name with
      | none =>
        exact ok_ne_exhausted _
      | some ce =>
        apply bind_ne_exhausted
        · refine getArray_ne_exhausted ?_ type
          intro num scan' after
          exact ends num scan' (by simp only at after; omega)
        · intro property _
          cases property with
          | none =>
            intro same
            cases same
          | some scan' =>
            exact ok_ne_exhausted _

theorem getValue_ne_exhausted (ends : Ends whole arr scan.pos) (type : UInt8) :
    getValue whole classes toStdClass arr type scan ≠ .error .exhausted := by
  rw [getValue]
  split
  · exact swooleUnserializeObject_ne_exhausted ends type
  · apply bind_ne_exhausted (read_ne_exhausted _ _)
    intro value _
    exact ok_ne_exhausted _
  · apply bind_ne_exhausted (read_ne_exhausted _ _)
    intro value _
    exact ok_ne_exhausted _
  · apply bind_ne_exhausted (getString_ne_exhausted _ _)
    intro scan' _ same
    cases same
  · exact getArray_ne_exhausted ends type
  · exact ok_ne_exhausted _

theorem swooleUnserializeArr_ends (fuel pos : Nat) (enough : whole.length < fuel + pos) :
    Ends whole (swooleUnserializeArr whole classes toStdClass fuel) pos := by
  induction fuel generalizing pos with
  | zero =>
    intro num scan after inside
    omega
  | succ fuel ih =>
    intro num scan after inside
    rw [swooleUnserializeArr]
    split_ifs with accept
    · clear inside accept
      -- every entry takes its type from the string, and with it a level from those that are left
      induction num generalizing scan with
      | zero =>
        exact ok_ne_exhausted _
      | succ num ih_entries =>
        apply bind_ne_exhausted (read_ne_exhausted _ _)
        intro type _
        apply bind_ne_exhausted (getKey_ne_exhausted _ _)
        intro key key_ok
        have after_key := (getKey_ok_iff.1 key_ok).le
        simp only at after_key
        apply bind_ne_exhausted (getValue_ne_exhausted (ih key.pos (by omega)) _)
        intro value value_ok
        cases value with
        | none =>
          cases num <;>
          · exact ok_ne_exhausted _
        | some value =>
          have after_value := (getValue_fits swooleUnserializeArr_fits value_ok).le _ rfl
          exact ih_entries value (by omega)
    · exact ok_ne_exhausted _

/-- The reading of any string comes to an end. -/
theorem terminates (whole : Bytes) (classes : Nat → Bytes → Option ClassEntry) (toStdClass : Bool) :
    phpSwooleUnserialize whole classes toStdClass ≠ .error .exhausted := by
  have ends : ∀ scan : Scan, Ends whole
      (swooleUnserializeArr whole classes toStdClass (whole.length + 1)) scan.pos := fun scan =>
    swooleUnserializeArr_ends _ _ (by omega)
  have check : swooleSeriaCheckEof whole ≠ .error .exhausted := by
    rw [swooleSeriaCheckEof]
    split_ifs
    · decide
    · exact ok_ne_exhausted _
  apply bind_ne_exhausted (read_ne_exhausted _ _)
  intro type _
  simp only
  split
  · apply bind_ne_exhausted check
    intro marked _
    split_ifs
    · apply bind_ne_exhausted (swooleUnserializeObject_ne_exhausted (ends _) _)
      intro cursor _
      exact ok_ne_exhausted _
    · exact ok_ne_exhausted _
  · apply bind_ne_exhausted (read_ne_exhausted _ _)
    intro value _
    exact ok_ne_exhausted _
  · apply bind_ne_exhausted (read_ne_exhausted _ _)
    intro value _
    exact ok_ne_exhausted _
  · apply bind_ne_exhausted (copy_ne_exhausted _ _)
    intro bytes _
    exact ok_ne_exhausted _
  · apply bind_ne_exhausted check
    intro marked _
    split_ifs
    · apply bind_ne_exhausted (getArray_ne_exhausted (ends _) _)
      intro cursor _
      exact ok_ne_exhausted _
    · exact ok_ne_exhausted _
  · exact ok_ne_exhausted _

/-! ### All strings -/

theorem swooleSeriaCheckEof_ok_iff {marked : Bool} : swooleSeriaCheckEof whole = .ok marked ↔
    3 ≤ whole.length ∧ marked = (whole.drop (whole.length - 3) == [69, 79, 70]) := by
  rw [swooleSeriaCheckEof]
  split_ifs with short
  · exact ⟨fun absurd_ok => (nomatch absurd_ok), fun enough => absurd enough.1 (by omega)⟩
  · rw [Except.ok.injEq]
    exact ⟨fun same => ⟨by omega, same.symm⟩, fun same => same.2.symm⟩

theorem Fits.decodes {item : Item} (fits : Fits whole classes toStdClass item scan cursor) :
    ∀ scan', cursor = some scan' → Decodes whole classes toStdClass item scan scan' := by
  induction fits with
  | array accept _ ih =>
    intro scan' reached
    exact .array accept (ih scan' reached)
  | refused => intro _ absurd_reached; cases absurd_reached
  | done =>
    rintro scan' reached
    cases reached
    exact .done
  | entry type key_fits _ _ value_ih ih =>
    intro scan' reached
    exact .entry type key_fits (value_ih _ rfl) (ih scan' reached)
  | failed => intro _ absurd_reached; cases absurd_reached
  | plain is_plain =>
    intro scan' reached
    cases reached
    refine .scalar ?_ ?_ (.plain is_plain) <;> · intro is_nested; simp [is_nested] at is_plain
  | long is_long fits =>
    intro scan' reached
    cases reached
    exact .scalar (by omega) (by omega) (.long is_long fits)
  | double is_double fits =>
    intro scan' reached
    cases reached
    exact .scalar (by omega) (by omega) (.double is_double fits)
  | string is_string fits =>
    intro scan' reached
    cases reached
    exact .scalar (by omega) (by omega) (.string is_string fits)
  | nested is_array count _ ih =>
    intro scan' reached
    exact .nested is_array count (ih scan' reached)
  | nameless => intro _ absurd_reached; cases absurd_reached
  | unknown => intro _ absurd_reached; cases absurd_reached
  | object is_object _ named _ the_class count _ ih =>
    intro scan' reached
    cases reached
    exact .object is_object named the_class count (ih _ rfl)

theorem marked_ok_iff {x : Except Stop (Option Scan)}
    (reads : ∀ cursor, x = .ok cursor ↔
      Fits whole classes toStdClass (.value type) ⟨1, true, 0⟩ cursor) :
    (∃ ret, (do
        if ← swooleSeriaCheckEof whole then
          let cursor ← x
          .ok cursor.isSome
        else .ok false : Except Stop Bool) = .ok ret ∧
      (ret = true → ∃ scan', Decodes whole classes toStdClass (.value type) ⟨1, true, 0⟩ scan')) ↔
      3 ≤ whole.length ∧ (whole.drop (whole.length - 3) = [69, 79, 70] →
        ∃ cursor, Fits whole classes toStdClass (.value type) ⟨1, true, 0⟩ cursor) := by
  simp only [bind_ok_iff, swooleSeriaCheckEof_ok_iff]
  constructor
  · rintro ⟨ret, ⟨marked, ⟨long, rfl⟩, ok⟩, -⟩
    refine ⟨long, fun eof => ?_⟩
    rw [if_pos (by rw [eof]; decide), bind_ok_iff] at ok
    obtain ⟨cursor, ok, -⟩ := ok
    exact ⟨cursor, (reads cursor).1 ok⟩
  · rintro ⟨long, fits⟩
    by_cases eof : whole.drop (whole.length - 3) = [69, 79, 70]
    · obtain ⟨cursor, fits⟩ := fits eof
      refine ⟨cursor.isSome, ⟨_, ⟨long, rfl⟩, ?_⟩, fun reached => ?_⟩
      · rw [if_pos (by rw [eof]; decide), bind_ok_iff]
        exact ⟨cursor, (reads cursor).2 fits, rfl⟩
      · obtain ⟨scan', rfl⟩ := Option.isSome_iff_exists.1 reached
        exact ⟨scan', fits.decodes scan' rfl⟩
    · refine ⟨false, ⟨_, ⟨long, rfl⟩, ?_⟩, fun absurd_ret => by cases absurd_ret⟩
      rw [if_neg (by simpa using eof)]

theorem getValue_ok_iff : getValue whole classes toStdClass
        (swooleUnserializeArr whole classes toStdClass (whole.length + 1)) type ⟨1, true, 0⟩ =
      .ok cursor ↔ Fits whole classes toStdClass (.value type) ⟨1, true, 0⟩ cursor := by
  constructor
  · exact getValue_fits swooleUnserializeArr_fits
  · intro fits
    exact fits.computes (whole.length + 1) (by simp only; omega)

/-- The reading is safe exactly for the strings in which whatever is announced is there. -/
theorem unserialize_safe_iff (whole : Bytes) (classes : Nat → Bytes → Option ClassEntry)
    (toStdClass : Bool) : Safe whole classes toStdClass ↔ Layout whole classes toStdClass := by
  have object_reads : ∀ type, dataType type = 0 → ∀ cursor,
      swooleUnserializeObject whole classes toStdClass
          (swooleUnserializeArr whole classes toStdClass (whole.length + 1)) type ⟨1, true, 0⟩ =
        .ok cursor ↔ Fits whole classes toStdClass (.value type) ⟨1, true, 0⟩ cursor := by
    intro type is_object cursor
    rw [← getValue_ok_iff]
    simp only [getValue, is_object]
  have array_reads : ∀ type, dataType type = 7 → ∀ cursor,
      getArray whole (swooleUnserializeArr whole classes toStdClass (whole.length + 1)) type
          ⟨1, true, 0⟩ =
        .ok cursor ↔ Fits whole classes toStdClass (.value type) ⟨1, true, 0⟩ cursor := by
    intro type is_array cursor
    rw [← getValue_ok_iff]
    simp only [getValue, is_array]
  unfold Safe phpSwooleUnserialize Layout
  simp only [bind_ok_iff, read_ok_iff]
  constructor
  · rintro ⟨ret, ⟨type, ⟨inside, rfl⟩, ok⟩, decoded⟩
    refine ⟨inside, ?_, ?_, ?_⟩
    · intro is_long
      simp only [is_long, bind_ok_iff, read_ok_iff] at ok
      obtain ⟨value, ⟨fits, -⟩, -⟩ := ok
      exact fits
    · intro is_double
      simp only [is_double, bind_ok_iff, read_ok_iff] at ok
      obtain ⟨value, ⟨fits, -⟩, -⟩ := ok
      exact fits
    · rintro (is_object | is_array)
      · simp only [is_object] at ok
        exact (marked_ok_iff (object_reads _ is_object)).1
          ⟨ret, ok, fun returned => decoded returned (.inl is_object)⟩
      · simp only [is_array] at ok
        exact (marked_ok_iff (array_reads _ is_array)).1
          ⟨ret, ok, fun returned => decoded returned (.inr is_array)⟩
  · rintro ⟨inside, long_fits, double_fits, nested_fits⟩
    by_cases is_object : dataType (UInt8.ofNat (number whole 0 1)) = 0
    · obtain ⟨ret, ok, decoded⟩ :=
        (marked_ok_iff (object_reads _ is_object)).2 (nested_fits (.inl is_object))
      refine ⟨ret, ⟨_, ⟨inside, rfl⟩, ?_⟩, fun returned _ => decoded returned⟩
      simp only [is_object]
      exact ok
    by_cases is_array : dataType (UInt8.ofNat (number whole 0 1)) = 7
    · obtain ⟨ret, ok, decoded⟩ :=
        (marked_ok_iff (array_reads _ is_array)).2 (nested_fits (.inr is_array))
      refine ⟨ret, ⟨_, ⟨inside, rfl⟩, ?_⟩, fun returned _ => decoded returned⟩
      simp only [is_array]
      exact ok
    -- Neither an array nor an object, so that there is nothing nested.
    refine ⟨true, ⟨_, ⟨inside, rfl⟩, ?_⟩, fun _ is_nested => ?_⟩
    · split
      · contradiction
      · next is_long =>
          rw [bind_ok_iff]
          exact ⟨_, read_ok_iff.2 ⟨long_fits is_long, rfl⟩, rfl⟩
      · next is_double =>
          rw [bind_ok_iff]
          exact ⟨_, read_ok_iff.2 ⟨double_fits is_double, rfl⟩, rfl⟩
      · rw [bind_ok_iff]
        refine ⟨_, copy_ok_iff.2 ⟨.inr ?_, rfl⟩, rfl⟩
        rw [Inside] at inside ⊢
        omega
      · contradiction
      · rfl
    · rcases is_nested with is_nested | is_nested
      · exact absurd is_nested is_object
      · exact absurd is_nested is_array

/-- An array that announces five entries, with nothing behind its count but the end marker: the
marker is taken for entries, and the reading leaves the string. -/
theorem not_unserialize_safe : ¬ ∀ (whole : Bytes) (classes : Nat → Bytes → Option ClassEntry)
    (toStdClass : Bool), Safe whole classes toStdClass := by
  intro safe
  obtain ⟨ret, ok, -⟩ := safe [232, 5, 69, 79, 70] (fun _ _ => none) false
  have left : phpSwooleUnserialize [232, 5, 69, 79, 70] (fun _ _ => none) false =
      .error .outside := by decide
  rw [left] at ok
  cases ok

end PhpExts.Swoole.SerializeBounds
