import PhpExts.Igbinary.Format
import PhpExts.Library.Prog

/-!
# The igbinary decoder

The functions `igbinary_unserialize_*` of `igbinary.c`, for both word sizes. The
decoder walks a buffer with an offset; it keeps the strings it has met, as
pieces of the buffer, and the arrays, objects and references it has made, as
pointers. A read outside the buffer and a use of a freed zval are faults.

The length checks compare `offset + n` with the buffer size in `size_t`
arithmetic; each announces the sum it is about to make. Storing under a key that
is present and cleaning up after a failure release zvals; both announce what
they release.

Allocation never fails here, so the branches for a null pointer from the
allocator and the capacities of the two tables are left out.
-/

namespace PhpExts.Igbinary

open PhpExts.Zend PhpExts.Library

/-! ## State and events -/

/-- What the decoder does not change: the word size, the buffer, whose size is a
`size_t`, and user code. -/
structure Env where
  w : WordSize
  buffer : Bytes
  fits : buffer.length < w.modulus
  user : UserCode

/-- `igsd->buffer_size`. -/
def Env.bufferSize (env : Env) : Nat := env.buffer.length

/-- `struct igbinary_unserialize_data`, with the heap and the warnings. A string
is kept as the offset where it starts and its length. -/
structure UnserializeData where
  bufferOffset : Nat
  strings : List (Nat × Nat)
  references : List Addr
  warnings : List Warning
  heap : Heap

inductive Fault where
  /-- A read at an index outside the buffer. -/
  | read (index : Nat)
  /-- A use of a zval that has been freed. -/
  | freed (a : Addr)
  deriving DecidableEq

/-- What a step announces before it is made. -/
inductive Event where
  /-- `offset + length` is compared with the buffer size. -/
  | take (offset length : Nat)
  /-- `length` bytes at `offset` are read without a comparison. -/
  | takeUnchecked (offset length : Nat)
  /-- A string without a length is read from `offset` up to a zero byte. -/
  | cString (offset : Nat)
  /-- An object is decoded. -/
  | object
  /-- `zval_ptr_dtor` of a zval. -/
  | destroy (a : Addr)
  /-- `zval_dtor` of a zval, which becomes null. -/
  | destroyContents (a : Addr)
  /-- Any other change of the heap or the references table. -/
  | change
  deriving DecidableEq

/-- A step: what is announced and the states around it. -/
structure Step where
  event : Event
  before : UnserializeData
  after : UnserializeData

/-- The decoder's programs. Every change of the heap and of the references table
is logged. -/
abbrev Dec (α : Type) : Type := Prog Warning Fault Step UnserializeData α

namespace Dec

/-- Announce an event and change the state. -/
def step (event : Event) (f : UnserializeData → UnserializeData) : Dec Unit := do
  Prog.announce fun s => ⟨event, s, f s⟩
  Prog.update f

def log (event : Event) : Dec Unit := step event id

def warn (warning : Warning) : Dec Unit :=
  Prog.update fun s => { s with warnings := s.warnings ++ [warning] }

def onHeap (event : Event) (f : Heap → Heap) : Dec Unit :=
  step event fun s => { s with heap := f s.heap }

def allocInitZval : Dec Addr := do
  let s ← Prog.read
  onHeap .change Heap.allocInitZval
  return s.heap.nextAddr

def setValue (z : Addr) (v : ZValue) : Dec Unit := onHeap .change fun h => h.setValue z v

def ptrDtor (a : Addr) : Dec Unit := onHeap (.destroy a) fun h => h.ptrDtor a

/-- `zval_dtor(*z); ZVAL_NULL(*z)`. -/
def dtorToNull (z : Addr) : Dec Unit := onHeap (.destroyContents z) fun h => h.dtorToNull z

def register (z : Addr) : Dec Unit :=
  step .change fun s => { s with references := s.references ++ [z] }

def zval (a : Addr) : Dec Zval := do
  let s ← Prog.read
  match s.heap.zvals a with
  | some z => return z
  | none => Prog.crash (.freed a)

end Dec

variable (env : Env)

/-! ## Reading bytes -/

def readByte (i : Nat) : Dec UInt8 :=
  match env.buffer[i]? with
  | some byte => pure byte
  | none => Prog.crash (.read i)

/-- The `n` bytes from an index on. -/
def readBytes (i : Nat) : Nat → Dec Bytes
  | 0 => pure []
  | n + 1 => do
    let byte ← readByte env i
    let rest ← readBytes (i + 1) n
    return byte :: rest

/-- The bytes from an index on up to a zero byte, looking at `n` bytes at most:
`strlen` and a copy. -/
def readCString (i : Nat) : Nat → Dec Bytes
  | 0 => Prog.crash (.read i)
  | n + 1 => do
    let byte ← readByte env i
    if byte = 0 then return []
    let rest ← readCString (i + 1) n
    return byte :: rest

/-- The comparison of `offset + n` with the buffer size. -/
def checkData (function : String) (n : Nat) : Dec Unit := do
  let s ← Prog.read
  Dec.log (.take s.bufferOffset n)
  Prog.failIf (env.bufferSize < env.w.add s.bufferOffset n) (.endOfData function)

def advance (n : Nat) : Dec Unit :=
  Prog.update fun s => { s with bufferOffset := env.w.add s.bufferOffset n }

/-- Read a number of `n` bytes and move on. -/
def unserializeNumber (n : Nat) : Dec Nat := do
  let s ← Prog.read
  let bytes ← readBytes env s.bufferOffset n
  advance env n
  return ofBigEndian bytes

/-- `igbinary_unserialize8`. -/
def unserialize8 : Dec UInt8 := do
  let s ← Prog.read
  let byte ← readByte env s.bufferOffset
  advance env 1
  return byte

/-- `igbinary_unserialize16`. -/
def unserialize16 : Dec Nat := unserializeNumber env 2

/-- `igbinary_unserialize32`. -/
def unserialize32 : Dec Nat := unserializeNumber env 4

/-- `igbinary_unserialize64`. -/
def unserialize64 : Dec Nat := unserializeNumber env 8

/-- The check and the read that precede every id, length and count of the given
number of bytes. -/
def unserializeSized (function : String) (n : Nat) : Dec Nat := do
  checkData env function n
  unserializeNumber env n

def isPrint (byte : UInt8) : Bool := 32 ≤ byte && byte < 127

def swappedVersion (version : Nat) : Bool := version ≠ 0 && version % 2 ^ 24 = 0

/-- `igbinary_unserialize_header_emit_warning`: the first of the four bytes that
is not printable ends the search. -/
def headerWarning (version : Nat) (i : Nat) : Nat → Dec Warning
  | 0 => do
    let start ← readBytes env 0 4
    return .textHeader (start.flatMap fun c => if c = 34 ∨ c = 92 then [92, c] else [c])
  | n + 1 => do
    let byte ← readByte env i
    if isPrint byte then headerWarning version (i + 1) n
    else if swappedVersion version then return .wrongEndianness version
    else return .unsupportedVersion version

def unserializeHeader : Dec Unit := do
  let s ← Prog.read
  Dec.log (.take s.bufferOffset 4)
  Prog.failIf (env.bufferSize ≤ env.w.add s.bufferOffset 4) (.tooShort env.bufferSize)
  let version ← unserialize32 env
  if version = formatVersion ∨ version = 1 then return ()
  let warning ← headerWarning env version 0 4
  Prog.fail warning

/-! ## Scalars and strings -/

def unserializeType : Dec UInt8 := unserialize8 env

def IgType.sign : IgType → Int
  | .long8n | .long16n | .long32n | .long64n => -1
  | _ => 1

def unserializeLong (t : IgType) : Dec Int :=
  match t with
  | .long8p | .long8n => do
    let n ← unserializeSized env "igbinary_unserialize_long" 1
    return env.w.toLong (t.sign * n)
  | .long16p | .long16n => do
    let n ← unserializeSized env "igbinary_unserialize_long" 2
    return env.w.toLong (t.sign * n)
  | .long32p | .long32n => do
    let n ← unserializeSized env "igbinary_unserialize_long" 4
    if env.w = .four ∧ (0x80000000 < n ∨ n = 0x80000000 ∧ t = .long32p) then
      Dec.warn .long64On32Bit
      return 0
    return env.w.toLong (t.sign * n)
  | .long64p | .long64n =>
    match env.w with
    | .eight => do
      let n ← unserializeSized env "igbinary_unserialize_long" 8
      if 0x8000000000000000 < n ∨ n = 0x8000000000000000 ∧ t = .long64p then
        Dec.warn .tooBigLong64
        return 0
      return env.w.toLong (t.sign * n)
    | .four => do
      let s ← Prog.read
      Dec.log (.takeUnchecked s.bufferOffset 8)
      let _ ← unserialize64 env
      Dec.warn .long64Placeholder
      return 0
  | _ => do
    let s ← Prog.read
    Prog.fail (.unknownType "igbinary_unserialize_long" "type" t.toByte s.bufferOffset)

def unserializeDouble : Dec Nat := do
  checkData env "igbinary_unserialize_double" 8
  unserialize64 env

def IgType.width : IgType → Nat
  | .ref8 | .stringId8 | .string8 | .array8 | .object8 | .objectId8 | .objectSer8 | .objref8 => 1
  | .ref16 | .stringId16 | .string16 | .array16 | .object16 | .objectId16 | .objectSer16
  | .objref16 => 2
  | _ => 4

/-- `igbinary_unserialize_string`: a string by its id. -/
def unserializeString (t : IgType) : Dec (Nat × Nat) :=
  match t with
  | .stringId8 | .objectId8 | .stringId16 | .objectId16 | .stringId32 | .objectId32 => do
    let i ← unserializeSized env "igbinary_unserialize_string" t.width
    let s ← Prog.read
    match s.strings[i]? with
    | none => Prog.fail .stringIndexOutOfBounds
    | some piece => return piece
  | _ => do
    let s ← Prog.read
    Prog.fail (.unknownType "igbinary_unserialize_string" "type" t.toByte s.bufferOffset)

/-- `igbinary_unserialize_chararray`: a string by its bytes, which is recorded. -/
def unserializeChararray (t : IgType) : Dec (Nat × Nat) :=
  match t with
  | .string8 | .object8 | .string16 | .object16 | .string32 | .object32 => do
    let l ← unserializeSized env "igbinary_unserialize_chararray" t.width
    checkData env "igbinary_unserialize_chararray" l
    let s ← Prog.read
    Prog.update fun s => { s with strings := s.strings ++ [(s.bufferOffset, l)] }
    advance env l
    return (s.bufferOffset, l)
  | _ => do
    let s ← Prog.read
    Prog.fail (.unknownType "igbinary_unserialize_chararray" "type" t.toByte s.bufferOffset)

/-- The key of an array element as it is read: null makes the loop go on with the
next element. -/
inductive ElementKey where
  | skip
  | index (h : Int)
  | piece (offset length : Nat)
  | empty

def unserializeKey : Dec ElementKey := do
  checkData env "igbinary_unserialize_array" 1
  let byte ← unserializeType env
  match IgType.ofByte byte with
  | some .long8p | some .long8n | some .long16p | some .long16n | some .long32p | some .long32n
  | some .long64p | some .long64n => do
    let h ← unserializeLong env ((IgType.ofByte byte).getD .null)
    return .index h
  | some .stringId8 | some .stringId16 | some .stringId32 => do
    let piece ← unserializeString env ((IgType.ofByte byte).getD .null)
    return .piece piece.1 piece.2
  | some .string8 | some .string16 | some .string32 => do
    let piece ← unserializeChararray env ((IgType.ofByte byte).getD .null)
    return .piece piece.1 piece.2
  | some .stringEmpty => return .empty
  | some .null => return .skip
  | _ => do
    let s ← Prog.read
    Prog.fail (.unknownType "igbinary_unserialize_array" "key type" byte s.bufferOffset)

/-- Store `v` in the table of `z`; a value displaced is released first. -/
def storeElement (z : Addr) (key : HashKey) (v : Addr) : Dec Unit := do
  let s ← Prog.read
  match (hashOf s.heap z).find key with
  | some old => Dec.ptrDtor old
  | none => pure ()
  Dec.onHeap .change fun h => setHashOf h z ((hashOf h z).update env.w key v)

/-- The decimal notation of a long, as `smart_str_print_long` prints it. -/
def printLong (n : Int) : Bytes := (toString n).toList.map fun c => UInt8.ofNat c.toNat

/-- The key an element is stored under. An integer key of an object is stored as
a string. -/
def elementKey (object : Bool) : ElementKey → Dec HashKey
  | .skip => pure (.string [])
  | .index h => pure (if object then .string (printLong h) else .index h)
  | .piece offset length => do
    let key ← readBytes env offset length
    return symtableKey env.w key
  | .empty => pure (symtableKey env.w [])

section

variable (unserializeZval : Addr → Dec Addr)

def unserializeElement (z : Addr) (object : Bool) : Dec Unit := do
  let key ← Prog.onError (unserializeKey env) (Dec.dtorToNull z)
  match key with
  | .skip => return ()
  | key => do
    let v ← Dec.allocInitZval
    let v ← Prog.onError (unserializeZval v) (do
      Dec.dtorToNull z
      Dec.ptrDtor v)
    let key ← elementKey env object key
    storeElement env z key v

def unserializeElements (z : Addr) (object : Bool) : Nat → Dec Unit
  | 0 => pure ()
  | n + 1 => do
    unserializeElement env unserializeZval z object
    unserializeElements z object n

def beginArray (z : Addr) (object : Bool) : Dec Unit :=
  if object then pure ()
  else do
    Dec.setValue z (.array .empty)
    Dec.register z

def unserializeArray (t : IgType) (z : Addr) (object : Bool) : Dec Unit :=
  match t with
  | .array8 | .array16 | .array32 => do
    let n ← unserializeSized env "igbinary_unserialize_array" t.width
    let s ← Prog.read
    Prog.failIf (env.w.sub env.bufferSize s.bufferOffset < n)
      (.dataTooSmall (env.w.sub env.bufferSize s.bufferOffset) n)
    beginArray z object
    unserializeElements env unserializeZval z object n
  | _ => do
    let s ← Prog.read
    Prog.fail (.unknownType "igbinary_unserialize_array" "type" t.toByte s.bufferOffset)

def unserializeObjectSer (t : IgType) (z : Addr) (ce : ClassEntry) : Dec Unit := do
  Prog.failIf (ce.unserialize = false) (.noUnserializer ce.name)
  match t with
  | .objectSer8 | .objectSer16 | .objectSer32 => do
    let n ← unserializeSized env "igbinary_unserialize_object_ser" t.width
    checkData env "igbinary_unserialize_object_ser" n
    let s ← Prog.read
    let data ← readBytes env s.bufferOffset n
    Prog.failIf (env.user.unserialize ce data = false) .userCode
    Dec.onHeap .change fun h =>
      match h.value z with
      | some (.object o) =>
        h.setObject o ((h.objects o).map fun cell => { cell with state := some data })
      | _ => h
    advance env n
  | _ => do
    let s ← Prog.read
    Prog.fail (.unknownType "igbinary_unserialize_object_ser" "type" t.toByte s.bufferOffset)

/-- The search for the class of an object: directly, then through the callback;
a class that is not found is replaced by the stand-in. The callback is given the
name up to a zero byte. -/
def resolveClass (piece : Nat × Nat) : Dec (ClassEntry × Bool) := do
  let name ← readBytes env piece.1 piece.2
  match env.user.lookupClass name with
  | some ce => return (ce, false)
  | none =>
    match env.user.callback with
    | none => return (incompleteClass, true)
    | some call => do
      Dec.log (.cString piece.1)
      let argument ← readCString env piece.1 (env.bufferSize + 1)
      match call argument with
      | none => do
        Dec.warn (.callbackNotFound argument)
        return (incompleteClass, true)
      | some none => do
        Dec.warn (.callbackDefinedNothing argument)
        return (incompleteClass, true)
      | some (some ce) => return (ce, false)

/-- `php_store_class_name`, for an object whose class is not defined. -/
def storeClassName (z : Addr) (name : Bytes) (incomplete : Bool) : Dec Unit :=
  if incomplete then do
    let v ← Dec.allocInitZval
    Dec.setValue v (.string name)
    storeElement env z (.string magicMember) v
  else pure ()

def unserializeClassName (t : IgType) : Dec (Nat × Nat) :=
  match t with
  | .object8 | .object16 | .object32 => unserializeChararray env t
  | .objectId8 | .objectId16 | .objectId32 => unserializeString env t
  | _ => do
    let s ← Prog.read
    Prog.fail (.unknownType "igbinary_unserialize_object" "object type" t.toByte s.bufferOffset)

/-- What follows the class name: the properties or the data of the class. The
result tells whether it was data of the class. -/
def unserializeObjectBody (z : Addr) (ce : ClassEntry) : Dec Bool := do
  checkData env "igbinary_unserialize_long" 1
  let byte ← unserializeType env
  match IgType.ofByte byte with
  | some .array8 | some .array16 | some .array32 => do
    unserializeArray env unserializeZval ((IgType.ofByte byte).getD .null) z true
    return false
  | some .objectSer8 | some .objectSer16 | some .objectSer32 => do
    unserializeObjectSer env ((IgType.ofByte byte).getD .null) z ce
    return true
  | _ => do
    let s ← Prog.read
    Prog.fail
      (.unknownType "igbinary_unserialize_object" "object inner type" byte s.bufferOffset)

def unserializeObject (t : IgType) (z : Addr) : Dec Unit := do
  Dec.log .object
  let piece ← unserializeClassName env t
  let (ce, incomplete) ← resolveClass env piece
  let name ← readBytes env piece.1 piece.2
  Prog.failIf (env.user.lookupRaises name) .userCode
  Dec.onHeap .change fun h => h.objectInitEx z ce
  Dec.register z
  storeClassName env z name incomplete
  let isFromSerializedData ← unserializeObjectBody env unserializeZval z ce
  Prog.failIf (!isFromSerializedData && !ce.isIncomplete && ce.wakeup && env.user.wakeupRaises ce)
    .userCode

/-! ## References and values -/

/-- `igbinary_unserialize_ref`: the pointer becomes a recorded zval. -/
def unserializeRef (t : IgType) (z : Addr) : Dec Addr :=
  match t with
  | .ref8 | .objref8 | .ref16 | .objref16 | .ref32 | .objref32 => do
    let n ← unserializeSized env "igbinary_unserialize_ref" t.width
    let s ← Prog.read
    match s.references[n]? with
    | none => Prog.fail .invalidReference
    | some a => do
      Dec.ptrDtor z
      let _ ← Dec.zval a
      Dec.onHeap .change fun h => h.addRef a
      match t with
      | .objref8 | .objref16 | .objref32 => Dec.onHeap .change fun h => h.setIsRef a false
      | _ => pure ()
      return a
  | _ => do
    let s ← Prog.read
    Prog.fail (.unknownType "igbinary_unserialize_ref" "type" t.toByte s.bufferOffset)

def ZValue.isScalar : ZValue → Bool
  | .null | .bool _ | .long _ | .double _ | .string _ => true
  | _ => false

/-- The case `igbinary_type_ref`: the value is decoded, recorded if it is a scalar
that is no reference yet, and marked as a reference. -/
def unserializeSimpleRef (z : Addr) : Dec Addr := do
  let z ← unserializeZval z
  let cell ← Dec.zval z
  if !cell.isRef && ZValue.isScalar cell.value then Dec.register z
  Dec.onHeap .change fun h => h.setIsRef z true
  return z

def setString (z : Addr) (piece : Nat × Nat) : Dec Addr := do
  let bytes ← readBytes env piece.1 piece.2
  Dec.setValue z (.string bytes)
  return z

/-- The switch of `igbinary_unserialize_zval`. -/
def unserializeTyped (t : IgType) (z : Addr) : Dec Addr :=
  match t with
  | .ref => unserializeSimpleRef unserializeZval z
  | .objref8 | .objref16 | .objref32 | .ref8 | .ref16 | .ref32 => unserializeRef env t z
  | .object8 | .object16 | .object32 | .objectId8 | .objectId16 | .objectId32 => do
    unserializeObject env unserializeZval t z
    return z
  | .array8 | .array16 | .array32 => do
    unserializeArray env unserializeZval t z false
    return z
  | .stringEmpty => do
    Dec.setValue z (.string [])
    return z
  | .stringId8 | .stringId16 | .stringId32 => do
    let piece ← unserializeString env t
    setString env z piece
  | .string8 | .string16 | .string32 => do
    let piece ← unserializeChararray env t
    setString env z piece
  | .long8p | .long8n | .long16p | .long16n | .long32p | .long32n | .long64p | .long64n => do
    let l ← unserializeLong env t
    Dec.setValue z (.long l)
    return z
  | .null => do
    Dec.setValue z .null
    return z
  | .boolFalse => do
    Dec.setValue z (.bool false)
    return z
  | .boolTrue => do
    Dec.setValue z (.bool true)
    return z
  | .double => do
    let bits ← unserializeDouble env
    Dec.setValue z (.double bits)
    return z
  | .objectSer8 | .objectSer16 | .objectSer32 => do
    let s ← Prog.read
    Prog.fail (.unknownType "igbinary_unserialize_zval" "type" t.toByte s.bufferOffset)

/-- The body of `igbinary_unserialize_zval`. -/
def unserializeZvalBody (z : Addr) : Dec Addr := do
  checkData env "igbinary_unserialize_zval" 1
  let byte ← unserializeType env
  match IgType.ofByte byte with
  | some t => unserializeTyped env unserializeZval t z
  | none => do
    let s ← Prog.read
    Prog.fail (.unknownType "igbinary_unserialize_zval" "type" byte s.bufferOffset)

end

/-- `igbinary_unserialize_zval`, nested at most `fuel` deep. The result is the
pointer the caller's `*z` holds afterwards. -/
def unserializeZval : Nat → Addr → Dec Addr
  | 0, _ => Prog.exhausted
  | fuel + 1, z => unserializeZvalBody env (unserializeZval fuel) z

/-- `igbinary_unserialize`: the header and one value. -/
def unserialize (fuel : Nat) (z : Addr) : Dec Addr := do
  unserializeHeader env
  unserializeZval env fuel z

/-- `igbinary_unserialize_data_init`, over the caller's heap. -/
def unserializeDataInit (h : Heap) : UnserializeData := ⟨0, [], [], [], h⟩

end PhpExts.Igbinary
