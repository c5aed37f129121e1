import PhpExts.Zend.UserCode
import PhpExts.Msgpack.Format

/-!
# The msgpack encoder

The functions `msgpack_pack_*` of `pack_template.h` and `msgpack_serialize_*` of
`msgpack_pack.c`. The encoder walks the zvals of a heap, which it leaves as it
is, and appends to a buffer. With `php_only` it numbers the arrays and objects
it meets and writes a marker for one it meets again; the number of times an
array is open bounds the nesting of arrays that contain themselves.

Every call of `msgpack_serialize_zval` announces the state it begins in, and
when it returns also the state it ends in.

Objects have a class entry, and user code does not change the heap.
-/

namespace PhpExts.Msgpack

open PhpExts.Zend PhpExts.Library

def packNil : Bytes := [0xc0]

def packTrue : Bytes := [0xc3]

def packFalse : Bytes := [0xc2]

def lowBits (k : Nat) (d : Int) : Nat := (d % 2 ^ k).toNat

/-- `msgpack_pack_long`, with a `long` of eight bytes. -/
def packLong (d : Int) : Bytes :=
  if d < -2 ^ 5 then
    if d < -2 ^ 15 then
      if d < -2 ^ 31 then 0xd3 :: bigEndian 8 (lowBits 64 d)
      else 0xd2 :: bigEndian 4 (lowBits 32 d)
    else if d < -2 ^ 7 then 0xd1 :: bigEndian 2 (lowBits 16 d)
    else 0xd0 :: bigEndian 1 (lowBits 8 d)
  else if d < 2 ^ 7 then [UInt8.ofNat (lowBits 8 d)]
  else if d < 2 ^ 16 then
    if d < 2 ^ 8 then 0xcc :: bigEndian 1 (lowBits 8 d)
    else 0xcd :: bigEndian 2 (lowBits 16 d)
  else if d < 2 ^ 32 then 0xce :: bigEndian 4 (lowBits 32 d)
  else 0xcf :: bigEndian 8 (lowBits 64 d)

def packDouble (bits : Nat) : Bytes := 0xcb :: bigEndian 8 bits

/-- `msgpack_pack_array`; the count is an `unsigned int`. -/
def packArray (count : Nat) : Bytes :=
  let n := count % 2 ^ 32
  if n < 16 then [UInt8.ofNat (0x90 + n)]
  else if n < 65536 then 0xdc :: bigEndian 2 n
  else 0xdd :: bigEndian 4 n

/-- `msgpack_pack_map`; the count is an `unsigned int`. -/
def packMap (count : Nat) : Bytes :=
  let n := count % 2 ^ 32
  if n < 16 then [UInt8.ofNat (0x80 + n)]
  else if n < 65536 then 0xde :: bigEndian 2 n
  else 0xdf :: bigEndian 4 n

def packRaw (useStr8Serialization : Bool) (l : Nat) : Bytes :=
  if l < 32 then [UInt8.ofNat (0xa0 + l)]
  else if l < 256 ∧ useStr8Serialization then 0xd9 :: bigEndian 1 l
  else if l < 65536 then 0xda :: bigEndian 2 l
  else 0xdb :: bigEndian 4 (l % 2 ^ 32)

/-- `msgpack_serialize_string`. -/
def packString (useStr8Serialization : Bool) (str : Bytes) : Bytes :=
  packRaw useStr8Serialization str.length ++ str

/-- What the encoder does not change: the settings, user code, the heap, and the
addresses of the zvals and the class entries in memory. -/
structure SerializeEnv where
  phpOnly : Bool
  useStr8Serialization : Bool
  user : UserCode
  heap : Heap
  zvalAddress : Addr → Int
  classAddress : ClassEntry → Nat

inductive Notice where
  | sleepNotString
  | sleepMissing (name : Bytes)
  | sleepNotArray
  | unsupported
  deriving DecidableEq

def Notice.text : Notice → String
  | sleepNotString =>
    "[msgpack] (msgpack_serialize_class) __sleep should return an array only containing the "
      ++ "names of instance-variables to serialize"
  | sleepMissing name =>
    "[msgpack] (msgpack_serialize_class) \"" ++ Zend.text name
      ++ "\" returned as member variable from __sleep() but does not exist"
  | sleepNotArray =>
    "[msgpack] (msgpack_serialize_object) __sleep should return an array only containing the "
      ++ "names of instance-variables to serialize"
  | unsupported => "[msgpack] (msgpack_serialize_zval) type is unsupported, encoded as null"

/-- The buffer, `var_hash`, the counts `nApplyCount` of the arrays, and the notices.
An entry of `var_hash` has its position, from one, as its value; an entry that
was only counted has no key. -/
structure SerializeData where
  buffer : Bytes
  varHash : List (Option Int)
  applyCount : Addr → Nat
  notices : List Notice

inductive SerializeFault where
  /-- The use of a zval that has been freed. -/
  | freed (a : Addr)
  /-- The use of an object that has been freed. -/
  | noObject (o : Handle)
  /-- The use of the name of a key before any key had one. -/
  | uninitializedKey
  deriving DecidableEq

/-- A call of `msgpack_serialize_zval`: the zval and the state it begins in; after
the call, also the state it ends in. -/
inductive SerializeCall where
  | begins (a : Addr) (before : SerializeData)
  | ends (a : Addr) (before after : SerializeData)

abbrev Ser (α : Type) : Type := Prog Unit SerializeFault SerializeCall SerializeData α

namespace Ser

def append (bytes : Bytes) : Ser Unit :=
  Prog.update fun s => { s with buffer := s.buffer ++ bytes }

def notice (notice : Notice) : Ser Unit :=
  Prog.update fun s => { s with notices := s.notices ++ [notice] }

def modifyApplyCount (a : Addr) (f : Nat → Nat) : Ser Unit :=
  Prog.update fun s => { s with applyCount := Function.update s.applyCount a (f (s.applyCount a)) }

end Ser

variable (env : SerializeEnv)

def serializeCell (a : Addr) : Ser Zval :=
  match env.heap.zvals a with
  | some z => pure z
  | none => Prog.crash (.freed a)

/-! ## Numbers of arrays and objects -/

/-- The key of an object in `var_hash`: the address of its class, rotated, and its
handle. -/
def objectKey (ce : ClassEntry) (o : Handle) : Int :=
  WordSize.eight.toLong
    (env.classAddress ce * 2 ^ 5 % 2 ^ 64 + env.classAddress ce / 2 ^ 59 + o : Nat)

/-- The key of an array or an object in `var_hash`. -/
def varKey (a : Addr) (value : ZValue) : Option Int :=
  match value with
  | .array _ => some (env.zvalAddress a)
  | .object o => (env.heap.objects o).map fun cell => objectKey env cell.ce o
  | _ => none

/-- What `msgpack_var_add` does: an array or object is counted, one that was counted
before has the number `varNo`, and any other zval is left out. -/
inductive VarAdd where
  | added
  | already (varNo : Nat)
  | untracked
  deriving DecidableEq

def varAdd (a : Addr) (z : Zval) : Ser VarAdd :=
  match varKey env a z.value with
  | none => pure .untracked
  | some key => do
    let s ← Prog.read
    if some key ∈ s.varHash then
      if z.isRef then return .already (s.varHash.idxOf (some key) + 1)
      else do
        Prog.update fun s => { s with varHash := s.varHash ++ [none] }
        return .already (s.varHash.idxOf (some key) + 1)
    else do
      Prog.update fun s => { s with varHash := s.varHash ++ [some key] }
      return .added

/-- The types `MSGPACK_SERIALIZE_TYPE_*` in the pair that marks a map. -/
def packMarker (type : Int) : Bytes := packNil ++ packLong type

def packBackReference (type : Int) (varNo : Nat) : Bytes :=
  packMap 2 ++ packMarker type ++ packLong 0 ++ packLong varNo

/-- `msgpack_check_ht_is_map`; the number of elements is an `int`. -/
def checkHtIsMap (table : HashTable Addr) : Bool :=
  WordSize.eight.toLong (if table.numElements < 2 ^ 31 then table.numElements
      else (table.numElements : Int) - 2 ^ 32) ≠ WordSize.eight.toLong table.nNextFreeElement ||
    table.keys.any fun key =>
      match key with
      | .index _ => false
      | .string _ => true

/-- The string of a key that `strcmp` sees. -/
def cString (key : Bytes) : Bytes := key.takeWhile (· ≠ 0)

/-- `incomplete_class && strcmp(key, MAGIC_MEMBER) == 0`, for the name of the last key
that had one. -/
def isMagicMember (incomplete : Bool) (key : Option Bytes) : Ser Bool :=
  if incomplete then
    match key with
    | some key => pure (cString key = magicMember)
    | none => Prog.crash .uninitializedKey
  else pure false

def packKey : HashKey → Bytes
  | .index h => packLong h
  | .string key => packString env.useStr8Serialization key

/-- The name the next key leaves in the variable `key`. -/
def lastKey (last : Option Bytes) : HashKey → Option Bytes
  | .index _ => last
  | .string key => some key

section

variable (serializeZval : Addr → Ser Unit)

/-- An element of an array or a property of an object: an array that is open more
than once is left out. -/
def serializeElement (data : Addr) : Ser Unit := do
  let z ← serializeCell env data
  match z.value with
  | .array _ => do
    let s ← Prog.read
    if 1 < s.applyCount data then Ser.append packNil
    else do
      Ser.modifyApplyCount data (· + 1)
      serializeZval data
      Ser.modifyApplyCount data (· - 1)
  | _ => serializeZval data

/-- The loop over the entries of a table, with their keys if `hash` is set. -/
def serializeEntries (hash incomplete : Bool) : Option Bytes → List (HashKey × Addr) → Ser Unit
  | _, [] => pure ()
  | last, (key, data) :: rest => do
    let skip ← isMagicMember incomplete (lastKey last key)
    if skip then serializeEntries hash incomplete (lastKey last key) rest
    else do
      Ser.append (if hash then packKey env key else [])
      serializeElement env serializeZval data
      serializeEntries hash incomplete (lastKey last key) rest

def serializeList (table : HashTable Addr) (i : Nat) : Nat → Ser Unit
  | 0 => pure ()
  | n + 1 => do
    match table.find (.index i) with
    | some data => serializeElement env serializeZval data
    | none => Ser.append packNil
    serializeList table (i + 1) n

/-- `msgpack_serialize_array` for an array. -/
def serializeArray (table : HashTable Addr) (isRef : Bool) : Ser Unit :=
  if table.numElements = 0 then Ser.append (packArray 0)
  else if isRef ∧ env.phpOnly then do
    Ser.append (packMap (table.numElements + 1) ++ packMarker 1)
    serializeEntries env serializeZval true false none table.buckets
  else if checkHtIsMap table then do
    Ser.append (packMap table.numElements)
    serializeEntries env serializeZval true false none table.buckets
  else do
    Ser.append (packArray table.numElements)
    serializeList env serializeZval table 0 table.numElements

def announced (table : HashTable Addr) (incomplete : Bool) : Nat :=
  if incomplete then table.numElements - 1 else table.numElements

def packObjectHeader (className : Bytes) (count : Nat) (isRef : Bool) : Bytes :=
  (if isRef then packMap (count + 2) ++ packMarker 1 else packMap (count + 1)) ++
    packNil ++ packString env.useStr8Serialization className

/-- `msgpack_serialize_array` for the properties of an object. -/
def serializeProperties (table : HashTable Addr) (isRef : Bool) (className : Bytes)
    (incomplete : Bool) : Ser Unit := do
  Ser.append (if env.phpOnly then packObjectHeader env className (announced table incomplete) isRef
    else packArray (announced table incomplete))
  if announced table incomplete = 0 then pure ()
  else serializeEntries env serializeZval env.phpOnly incomplete none table.buckets

def manglePropertyName (scope name : Bytes) : Bytes := 0 :: (scope ++ 0 :: name)

/-- The search for a property named by `__sleep`: as it is named, private, and
protected. The result is the name it is stored under, and its value. -/
def findProperty (properties : HashTable Addr) (ce : ClassEntry) (name : Bytes) :
    Option (Bytes × Addr) :=
  match properties.find (.string name) with
  | some data => some (name, data)
  | none =>
    match properties.find (.string (manglePropertyName ce.name name)) with
    | some data => some (manglePropertyName ce.name name, data)
    | none =>
      match properties.find (.string (manglePropertyName [42] name)) with
      | some data => some (manglePropertyName [42] name, data)
      | none => none

/-- The loop over the elements of the array `__sleep` has returned. -/
def serializeNames (properties : HashTable Addr) (ce : ClassEntry) :
    List (HashKey × Option Bytes) → Ser Unit
  | [] => pure ()
  | (_, none) :: rest => do
    Ser.notice .sleepNotString
    serializeNames properties ce rest
  | (_, some name) :: rest => do
    match findProperty properties ce name with
    | some (stored, data) => do
      Ser.append (packString env.useStr8Serialization stored)
      serializeZval data
    | none => do
      Ser.notice (.sleepMissing name)
      Ser.append (packString env.useStr8Serialization name ++ packNil)
    serializeNames properties ce rest

/-- `msgpack_serialize_class`, which is called for classes that are defined. -/
def serializeClass (properties : HashTable Addr) (ce : ClassEntry) (className : Bytes)
    (names : List (HashKey × Option Bytes)) : Ser Unit :=
  if names.length = 0 then pure ()
  else do
    Ser.append (packMap (names.length + 1) ++ packNil ++
      packString env.useStr8Serialization className)
    serializeNames env serializeZval properties ce names

/-- `PHP_SET_CLASS_ATTRIBUTES`: the name of an object's class. For a class that is not
defined it is the one kept among the properties. -/
def className (cell : ObjectCell) : Bytes :=
  if cell.ce.isIncomplete then
    match (cell.properties.find (.string magicMember)).bind env.heap.value with
    | some (.string name) => name
    | _ => incompleteClassName
  else cell.ce.name

/-- The map for the data of a class's `serialize` handler. -/
def packCustom (ce : ClassEntry) (data : Bytes) : Bytes :=
  packMap 2 ++ packMarker 3 ++ packString env.useStr8Serialization ce.name ++
    packString env.useStr8Serialization data

def serializeObject (o : Handle) (cell : ObjectCell) (isRef : Bool) : Ser Unit :=
  if cell.ce.serialize then
    match env.user.serialize o with
    | .data data => Ser.append (packCustom env cell.ce data)
    | _ => Ser.append packNil
  else if cell.ce.isIncomplete = false ∧ cell.ce.sleep then
    match env.user.sleep o with
    | .names names =>
      serializeClass env serializeZval cell.properties cell.ce (className env cell) names
    | .notArray => do
      Ser.notice .sleepNotArray
      Ser.append packNil
    | .noValue => pure ()
    | .exception =>
      serializeProperties env serializeZval cell.properties isRef (className env cell) false
  else
    serializeProperties env serializeZval cell.properties isRef (className env cell)
      cell.ce.isIncomplete

def serializeValue (z : Zval) : Ser Unit :=
  match z.value with
  | .null => Ser.append packNil
  | .bool b => Ser.append (if b then packTrue else packFalse)
  | .long l => Ser.append (packLong l)
  | .double bits => Ser.append (packDouble bits)
  | .string s => Ser.append (packString env.useStr8Serialization s)
  | .array table => serializeArray env serializeZval table z.isRef
  | .object o =>
    match env.heap.objects o with
    | some cell => serializeObject env serializeZval o cell z.isRef
    | none => Prog.crash (.noObject o)
  | .resource _ => do
    Ser.notice .unsupported
    Ser.append packNil

/-- The marker for a zval met before, if one is written: references are written as
such, other arrays anew. -/
def backReference (z : Zval) (varNo : Nat) : Option Bytes :=
  match z.value with
  | .array _ => if z.isRef then some (packBackReference 2 varNo) else none
  | .object _ =>
    if z.isRef then some (packBackReference 5 varNo) else some (packBackReference 4 varNo)
  | _ => none

/-- What follows `msgpack_var_add`. -/
def serializeAdded (z : Zval) (result : VarAdd) : Ser Unit :=
  match result with
  | .already varNo =>
    match backReference z varNo with
    | some bytes => Ser.append bytes
    | none => serializeValue env serializeZval z
  | _ => serializeValue env serializeZval z

/-- The body of `msgpack_serialize_zval`. -/
def serializeZvalBody (a : Addr) : Ser Unit := do
  let before ← Prog.read
  Prog.announce fun _ => .begins a before
  let z ← serializeCell env a
  if env.phpOnly then do
    let result ← varAdd env a z
    serializeAdded env serializeZval z result
  else serializeValue env serializeZval z
  Prog.announce fun after => .ends a before after

end

/-- `msgpack_serialize_zval`, nested at most `fuel` deep. -/
def serializeZval : Nat → Addr → Ser Unit
  | 0, _ => Prog.exhausted
  | fuel + 1, a => serializeZvalBody env (serializeZval fuel) a

/-- The state `php_msgpack_serialize` begins in. -/
def serializeInit : SerializeData := ⟨[], [], fun _ => 0, []⟩

/-- `php_msgpack_serialize`, outside of any other call of it. -/
def serialize (fuel : Nat) (a : Addr) : Run Unit SerializeFault SerializeCall SerializeData Unit :=
  serializeZval env fuel a serializeInit

end PhpExts.Msgpack
