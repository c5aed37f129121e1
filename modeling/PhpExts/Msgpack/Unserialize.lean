import PhpExts.Zend.UserCode
import PhpExts.Msgpack.Template

/-!
# The callbacks of the msgpack decoder

The functions `msgpack_unserialize_*` of `msgpack_unpack.c`, over the engine's
heap. A callback makes a zval for what the parser has read; the item callbacks
store one zval in another. The containers are recorded as slots, which the
markers refer to by number, and the other zvals are kept on a stack until they
are stored, to be released if the parser stops before.

With `php_only` a map says by pairs with the key null what it stands for: an
object of a class, a reference, or a zval met before. The map-item callback keeps
what it was told in `type` and reads the next pair accordingly. Reading a zval as
a string or as a number when it is neither is a misuse, as is the use of a zval
that has been freed.

Allocation never fails here, and the updates of a hash table, which fail only
with it, succeed.
-/

namespace PhpExts.Msgpack

open PhpExts.Zend PhpExts.Library

/-- `enum msgpack_serialize_type`. -/
inductive SerializeType where
  | none | reference | recursive | customObject | object | objectReference
  deriving DecidableEq

def SerializeType.toLong : SerializeType → Int
  | .none => 0 | .reference => 1 | .recursive => 2
  | .customObject => 3 | .object => 4 | .objectReference => 5

inductive Warning where
  | callbackNotFound (className : Bytes)
  | callbackDefinedNothing (className : Bytes)
  | exceptionError
  | noUnserializer (className : Bytes)
  | invalidReferences (value : Int)
  | illegalKeyType
  deriving DecidableEq

def Warning.text : Warning → String
  | callbackNotFound className =>
    "[msgpack] (msgpack_unserialize_class) defined (" ++ Zend.text className ++ ") but not found"
  | callbackDefinedNothing className =>
    "[msgpack] (msgpack_unserialize_class) Function " ++ Zend.text className
      ++ "() hasn't defined the class it was called for"
  | exceptionError => "[msgpack] (msgpack_unserialize_class) Exception error"
  | noUnserializer className =>
    "[msgpack] (msgpack_unserialize_map_item) Class " ++ Zend.text className
      ++ " has no unserializer"
  | invalidReferences value =>
    "[msgpack] (msgpack_unserialize_map_item) Invalid references value: " ++ toString value
  | illegalKeyType => "[msgpack] (msgpack_unserialize_map_item) illegal key type"

/-- The settings of the extension, user code, and the engine's conversion of a
value to a string. -/
structure Config where
  phpOnly : Bool
  illegalKeyInsert : Bool
  user : UserCode
  convertToString : ZValue → Bytes

/-- `msgpack_unserialize_data` with `var_hash` and the heap. The counts of `stack`
are listed innermost first, so that `deps` is its length; the blocks of the list
`first` are read as one list of slots, those of `first_dtor` are kept. `wakeups`
lists the objects whose `__wakeup` has been called. -/
structure UnserializeData where
  retval : Addr
  stack : List Nat
  type : SerializeType
  slots : List Addr
  dtors : List (List (Option Addr))
  heap : Heap
  warnings : List Warning
  wakeups : List Addr

inductive Misuse where
  /-- The use of a zval that has been freed. -/
  | freed (a : Addr)
  /-- The read of a member of a value of another type. -/
  | wrongType (a : Addr)
  /-- An append to a zval that is no array. -/
  | notArray (a : Addr)
  /-- An access before the first or behind the last count. -/
  | count
  deriving DecidableEq

structure MapItem where
  before : UnserializeData
  container : Addr
  key : Addr
  val : Addr

abbrev Callback (α : Type) : Type := Prog Unit Misuse MapItem UnserializeData α

namespace Callback

def warn (warning : Warning) : Callback Unit :=
  Prog.update fun s => { s with warnings := s.warnings ++ [warning] }

def onHeap (f : Heap → Heap) : Callback Unit := Prog.update fun s => { s with heap := f s.heap }

/-- `unpack->type = ...`. -/
def setType (type : SerializeType) : Callback Unit := Prog.update fun s => { s with type := type }

def zval (a : Addr) : Callback Zval := do
  let s ← Prog.read
  match s.heap.zvals a with
  | some z => pure z
  | none => Prog.crash (.freed a)

def onZval (a : Addr) (f : Heap → Heap) : Callback Unit := do
  let _ ← zval a
  onHeap f

def allocInitZval : Callback Addr := do
  let s ← Prog.read
  onHeap Heap.allocInitZval
  return s.heap.nextAddr

def ptrDtor (a : Addr) : Callback Unit := onZval a fun h => h.ptrDtor a

def readMember {β : Type} (member : ZValue → Option β) (a : Addr) : Callback β := do
  let z ← zval a
  match member z.value with
  | some b => pure b
  | none => Prog.crash (.wrongType a)

/-- `Z_STRVAL_P(z)` with `Z_STRLEN_P(z)`. -/
def readString (a : Addr) : Callback Bytes := readMember ZValue.string? a

/-- `Z_LVAL_P(z)`. -/
def readLong (a : Addr) : Callback Int := readMember ZValue.long? a

end Callback

/-! ## Slots and the stack of what is not stored yet -/

def varEntriesMax : Nat := 1024

def varPush (a : Addr) : Callback Unit :=
  Prog.update fun s => { s with slots := s.slots ++ [a] }

/-- `msgpack_var_access`: the slot of a number, if there is one. -/
def varAccess (slots : List Addr) (id : Int) : Option Addr :=
  if id < 0 then none else slots[id.toNat]?

def pushDtor (entry : Option Addr) : List (List (Option Addr)) → List (List (Option Addr))
  | [] => [[entry]]
  | block :: rest =>
    if block.length = varEntriesMax then block :: pushDtor entry rest
    else (block ++ [entry]) :: rest

def popDtor (count : Nat) : List (List (Option Addr)) → List (List (Option Addr))
  | [] => []
  | block :: rest =>
    if block.length = varEntriesMax then block :: popDtor count rest
    else block.take (block.length - count) :: rest

def stackPush (entry : Option Addr) : Callback Unit :=
  Prog.update fun s => { s with dtors := pushDtor entry s.dtors }

def stackPop (count : Nat) : Callback Unit :=
  Prog.update fun s => { s with dtors := popDtor count s.dtors }

/-! ## Scalars and containers -/

def allocStack : Callback Addr := do
  let s ← Prog.read
  if s.stack = [] then do
    stackPush none
    return s.retval
  else do
    let a ← Callback.allocInitZval
    stackPush (some a)
    return a

def allocValue : Callback Addr := do
  let s ← Prog.read
  if s.stack = [] then do
    varPush s.retval
    return s.retval
  else do
    let a ← Callback.allocInitZval
    varPush a
    return a

def floatToDouble (bits : Nat) : Nat :=
  let sign := bits / 2 ^ 31
  let exponent := bits / 2 ^ 23 % 2 ^ 8
  let fraction := bits % 2 ^ 23
  if exponent = 255 then sign * 2 ^ 63 + 2047 * 2 ^ 52 + fraction * 2 ^ 29
  else if exponent ≠ 0 then sign * 2 ^ 63 + (exponent + 896) * 2 ^ 52 + fraction * 2 ^ 29
  else if fraction = 0 then sign * 2 ^ 63
  else
    let top := Nat.log2 fraction
    sign * 2 ^ 63 + (top + 874) * 2 ^ 52 + (fraction - 2 ^ top) * 2 ^ (52 - top)

def Value.toZValue : Value → ZValue
  | uint8 n | uint16 n | uint32 n | uint64 n => .long (WordSize.eight.toLong n)
  | int8 n | int16 n | int32 n | int64 n => .long n
  | float bits => .double (floatToDouble bits)
  | double bits => .double bits
  | nil => .null
  | true => .bool Bool.true
  | false => .bool Bool.false
  | raw bytes | bin bytes => .string bytes

/-- `msgpack_unserialize_uint8` and the other callbacks of a scalar. -/
def unserializeValue (value : Value) : Callback Addr := do
  let obj ← allocStack
  Callback.onHeap fun h => h.setValue obj value.toZValue
  return obj

/-- `if (count) unpack->stack[unpack->deps++] = count;`. -/
def openContainer (count : Nat) : Callback Unit := do
  let s ← Prog.read
  if count = 0 then pure ()
  else if embedStackSize ≤ s.stack.length then Prog.crash .count
  else Prog.update fun s => { s with stack := count :: s.stack }

def unserializeArray (count : Nat) : Callback Addr := do
  let obj ← allocValue
  Callback.onHeap fun h => h.setValue obj (.array .empty)
  openContainer count
  return obj

/-- The class `stdClass`. -/
def stdClass : ClassEntry :=
  { name := [115, 116, 100, 67, 108, 97, 115, 115], isIncomplete := false, serialize := false,
    unserialize := false, sleep := false, wakeup := false }

def initMap (config : Config) (obj : Addr) (count : Nat) : Callback Unit :=
  if count = 0 then
    Callback.onHeap fun h =>
      if config.phpOnly then h.objectInitEx obj stdClass else h.setValue obj (.array .empty)
  else pure ()

def unserializeMap (config : Config) (count : Nat) : Callback Addr := do
  let obj ← allocValue
  openContainer count
  Callback.setType .none
  initMap config obj count
  return obj

def countItem : Callback Unit := do
  let s ← Prog.read
  match s.stack with
  | [] => Prog.crash .count
  | count :: rest =>
    Prog.update fun s => { s with stack := if count = 1 then rest else (count - 1) :: rest }

def finishItem (count : Nat) : Callback Unit := do
  stackPop count
  countItem

def finishMapItem (key val : Addr) : Callback Unit := do
  Callback.ptrDtor key
  Callback.ptrDtor val
  finishItem 2

/-- `add_next_index_zval`. -/
def addNextIndex (container obj : Addr) : Callback Unit := do
  let z ← Callback.zval container
  match z.value with
  | .array table =>
    Callback.onHeap fun h =>
      match table.nextIndexInsert .eight obj with
      | some table' => h.setValue container (.array table')
      | none => h
  | _ => Prog.crash (.notArray container)

def unserializeArrayItem (container obj : Addr) : Callback Addr := do
  addNextIndex container obj
  finishItem 1
  return container

def releaseDisplaced (displaced : Option Addr) : Callback Unit :=
  match displaced with
  | some old => Callback.ptrDtor old
  | none => pure ()

/-- `zend_hash_update` on the table of a container. -/
def updateItem (container : Addr) (key : HashKey) (val : Addr) : Callback Unit := do
  let s ← Prog.read
  releaseDisplaced ((hashOf s.heap container).find key)
  Callback.onHeap fun h => setHashOf h container ((hashOf h container).update .eight key val)

/-- `zend_hash_next_index_insert` on the table of a container, and whether it
succeeded. -/
def appendItem (container val : Addr) : Callback Bool := do
  let s ← Prog.read
  match (hashOf s.heap container).nextIndexInsert .eight val with
  | some table => do
    Callback.onHeap fun h => setHashOf h container table
    return true
  | none => return false

/-- What the search for a class ends with: the class, whether it stands for one that
is not defined, and what is reported. -/
structure FoundClass where
  ce : ClassEntry
  incomplete : Bool
  warnings : List Warning

/-- The search for a class: directly, then through the callback, which is given the
name up to a zero byte. -/
def findClass (user : UserCode) (name : Bytes) : FoundClass :=
  match user.lookupClass name with
  | some ce => ⟨ce, false, []⟩
  | none =>
    match user.callback with
    | none => ⟨incompleteClass, true, []⟩
    | some call =>
      match call (name.takeWhile (· ≠ 0)) with
      | none => ⟨incompleteClass, true, [.callbackNotFound name]⟩
      | some none => ⟨incompleteClass, true, [.callbackDefinedNothing name]⟩
      | some (some ce) => ⟨ce, false, []⟩

/-- `php_store_class_name`, for an object whose class is not defined. -/
def storeClassName (container : Addr) (name : Bytes) (incomplete : Bool) : Callback Unit :=
  if incomplete then do
    let v ← Callback.allocInitZval
    Callback.onHeap fun h => h.setValue v (.string name)
    updateItem container (.string magicMember) v
  else pure ()

/-- `msgpack_unserialize_class`: the container becomes an object of the class,
unless looking it up has raised an exception. -/
def unserializeClass (config : Config) (container : Addr) (name : Bytes) :
    Callback (Option ClassEntry) := do
  Prog.update fun s =>
    { s with warnings := s.warnings ++ (findClass config.user name).warnings }
  if config.user.lookupRaises name then do
    Callback.warn .exceptionError
    return none
  else do
    Callback.onZval container fun h => h.objectInitEx container (findClass config.user name).ce
    storeClassName container name (findClass config.user name).incomplete
    return some (findClass config.user name).ce

def readMarker (config : Config) (container val : Addr) : Callback Unit := do
  let value ← Callback.zval val
  match value.value with
  | .long 1 => Callback.onZval container fun h => h.setIsRef container true
  | .long 2 => Callback.setType .recursive
  | .long 3 => Callback.setType .customObject
  | .long 4 => Callback.setType .object
  | .long 5 => Callback.setType .objectReference
  | .string name => do
    let _ ← unserializeClass config container name
    return ()
  | _ => pure ()

def mapItemMarker (config : Config) (container key val : Addr) : Callback Addr := do
  Callback.setType .none
  readMarker config container val
  finishMapItem key val
  return container

/-- `ce->unserialize`, if the class has it. It is given the byte behind the data
too. -/
def callUnserialize (container val : Addr) (ce : Option ClassEntry) : Callback Unit :=
  match ce with
  | none => pure ()
  | some ce =>
    if ce.unserialize then do
      let data ← Callback.readString val
      Callback.onHeap fun h =>
        match h.value container with
        | some (.object o) =>
          h.setObject o ((h.objects o).map fun cell => { cell with state := some (data ++ [0]) })
        | _ => h
    else Callback.warn (.noUnserializer ce.name)

/-- The pair after `CUSTOM_OBJECT`: a class and the data for its `unserialize`. -/
def mapItemCustom (config : Config) (container key val : Addr) : Callback Addr := do
  Callback.setType .none
  let name ← Callback.readString key
  let ce ← unserializeClass config container name
  callUnserialize container val ce
  finishMapItem key val
  return container

def markReference (type : SerializeType) (a : Addr) : Callback Unit :=
  match type with
  | .object => Callback.onHeap fun h => h.setIsRef a false
  | .objectReference => Callback.onHeap fun h => h.setIsRef a true
  | _ => pure ()

/-- The pair after `RECURSIVE`, `OBJECT` and `OBJECT_REFERENCE`: the number of a slot,
whose zval replaces the container. -/
def mapItemBackReference (type : SerializeType) (container key val : Addr) : Callback Addr := do
  Callback.setType .none
  let id ← Callback.readLong val
  let s ← Prog.read
  match varAccess s.slots (id - 1) with
  | none => do
    Callback.warn (.invalidReferences (id - 1))
    finishMapItem key val
    return container
  | some a => do
    Callback.ptrDtor container
    Callback.onZval a fun h => h.addRef a
    markReference type a
    finishMapItem key val
    return a

/-- `array_init` for a container that is neither an array nor an object yet. -/
def initContainer (container : Addr) : Callback Unit := do
  let z ← Callback.zval container
  match z.value with
  | .array _ | .object _ => pure ()
  | _ => Callback.onHeap fun h => h.setValue container (.array .empty)

def discardUnless (stored : Bool) (val : Addr) : Callback Unit :=
  if stored then pure () else Callback.ptrDtor val

/-- The default of the switch over the key's type: the key and the value are
appended, or the key is converted to a string. -/
def storeIllegalKey (config : Config) (container key val : Addr) : Callback Unit := do
  Callback.warn .illegalKeyType
  if config.illegalKeyInsert then do
    let keyStored ← appendItem container key
    discardUnless keyStored val
    let valStored ← appendItem container val
    discardUnless valStored val
  else do
    let z ← Callback.zval key
    let name := config.convertToString z.value
    Callback.onHeap fun h => (h.dtorToNull key).setValue key (.string name)
    updateItem container (symtableKey .eight name) val
    Callback.ptrDtor key

/-- `zend_hash_exists(&Z_OBJCE_PP(container)->function_table, "__wakeup")` for an
object of a class that is defined. -/
def hasWakeup (h : Heap) (a : Addr) : Bool :=
  match h.value a with
  | some (.object o) =>
    match h.objects o with
    | some cell => !cell.ce.isIncomplete && cell.ce.wakeup
    | none => false
  | _ => false

/-- The end of `msgpack_unserialize_map_item`: the innermost container has one item
less to wait for, and an object that is complete is woken up. -/
def wakeupWhenComplete (config : Config) (container : Addr) : Callback Unit := do
  stackPop 2
  let s ← Prog.read
  countItem
  if s.stack.head? = some 1 ∧ config.phpOnly ∧ hasWakeup s.heap container then
    Prog.update fun s => { s with wakeups := s.wakeups ++ [container] }
  else pure ()

def storeItem (config : Config) (container key val : Addr) : Callback Unit := do
  let z ← Callback.zval key
  match z.value with
  | .long h => do
    updateItem container (.index h) val
    Callback.ptrDtor key
  | .string name => do
    updateItem container (symtableKey .eight name) val
    Callback.ptrDtor key
  | _ => storeIllegalKey config container key val

def mapItemStore (config : Config) (container key val : Addr) : Callback Addr := do
  initContainer container
  storeItem config container key val
  wakeupWhenComplete config container
  return container

def unserializeMapItem (config : Config) (container key val : Addr) : Callback Addr := do
  Prog.announce fun s => ⟨s, container, key, val⟩
  if config.phpOnly then do
    let z ← Callback.zval key
    let s ← Prog.read
    if z.value.isNull then mapItemMarker config container key val
    else
      match s.type with
      | .customObject => mapItemCustom config container key val
      | .recursive => mapItemBackReference .recursive container key val
      | .object => mapItemBackReference .object container key val
      | .objectReference => mapItemBackReference .objectReference container key val
      | .none | .reference => mapItemStore config container key val
  else mapItemStore config container key val

/-- The callbacks of `unpack_template.h`. -/
def unserializeCallbacks (config : Config) : Callbacks Misuse MapItem UnserializeData Addr where
  value := unserializeValue
  array := unserializeArray
  map := unserializeMap config
  arrayItem := unserializeArrayItem
  mapItem := unserializeMapItem config

/-- `msgpack_unserialize_init` and `msgpack_unserialize_var_init`, for a result that
the caller has made. -/
def unserializeInit (retval : Addr) (h : Heap) : UnserializeData :=
  ⟨retval, [], .none, [], [], h, [], []⟩

/-- The call of `template_execute` in `php_msgpack_unserialize`. -/
def unserialize (config : Config) (str : Bytes) (fuel : Nat) (retval : Addr) (h : Heap) :
    Run Unit (Access Misuse) MapItem (Context UnserializeData Addr) Ret :=
  execute (unserializeCallbacks config) str fuel (Context.init (unserializeInit retval h))

end PhpExts.Msgpack
