import PhpExts.Zend.HashTable
import PhpExts.Library.BigEndian
import PhpExts.Library.Prog

/-!
# The resumable msgpack parser

The state machine of `unpack_template.h`, over any callbacks. The parser keeps
its position in the data, the state `cs` with the number `trail` of bytes it
waits for, and a stack of the containers it is inside of; the callbacks work on
a state of their own.

One `step` goes from the loop's test, or from the label `_fixed_trail_again`, to
the next of the two: in both places what happens next depends on `cs` alone, and
a call that stops there is resumed there. Inside a step come the labels `_push`
and `_header_again`. Positions are offsets from `data`, on a 64-bit build;
`trail - 1` is computed in 32 bits and `pe - p` in 64.
-/

namespace PhpExts.Msgpack

open PhpExts.Zend PhpExts.Library

inductive UnpackState where
  | header
  | bin8 | bin16 | bin32
  | float | double
  | uint8 | uint16 | uint32 | uint64
  | int8 | int16 | int32 | int64
  | raw8 | raw16 | raw32
  | array16 | array32
  | map16 | map32
  | binValue | rawValue
  deriving DecidableEq

inductive ContainerType where
  | arrayItem | mapKey | mapValue
  deriving DecidableEq

/-- An entry of the stack: the container, the number of items that are missing,
what comes next, and the key that waits for its value. -/
structure Stack (ο : Type) where
  obj : ο
  count : Nat
  ct : ContainerType
  mapKey : Option ο

/-- `struct template_context`, with the position. The entries below `top` are
listed innermost first; `data` is `stack[0].obj` after `_finish`. -/
structure Context (υ ο : Type) where
  p : Nat
  cs : UnpackState
  trail : Nat
  stack : List (Stack ο)
  data : Option ο
  user : υ

def embedStackSize : Nat := 1024

/-- A value that is complete in itself. Numbers keep the width they have in the
data; `float` and `double` are bit patterns. -/
inductive Value where
  | uint8 (n : Nat) | uint16 (n : Nat) | uint32 (n : Nat) | uint64 (n : Nat)
  | int8 (n : Int) | int16 (n : Int) | int32 (n : Int) | int64 (n : Int)
  | float (bits : Nat) | double (bits : Nat)
  | nil | true | false
  | raw (bytes : Bytes) | bin (bytes : Bytes)
  deriving DecidableEq

/-- The callbacks, over a state `υ`, objects `ο`, undefined accesses `φ` and log
entries `τ`; an error is a negative result. The item callbacks may replace the
container they are given. -/
structure Callbacks (φ τ υ ο : Type) where
  value : Value → Prog Unit φ τ υ ο
  array : Nat → Prog Unit φ τ υ ο
  map : Nat → Prog Unit φ τ υ ο
  arrayItem : ο → ο → Prog Unit φ τ υ ο
  mapItem : ο → ο → ο → Prog Unit φ τ υ ο

/-- An access that is undefined: a read outside the data, the use of a key that
was never set, or an access of a callback. -/
inductive Access (φ : Type) where
  | read (index : Nat)
  | noKey
  | callback (access : φ)
  deriving DecidableEq

/-- Where a step leaves the parser: at the next test, at `_out`, or at
`_finish`. -/
inductive Label where
  | again | out | finish
  deriving DecidableEq

variable {φ τ υ ο : Type}

/-- The parser's programs; `_failed` is an error. -/
abbrev Machine (φ τ υ ο α : Type) : Type := Prog Unit (Access φ) τ (Context υ ο) α

def call {α : Type} (m : Prog Unit φ τ υ α) : Machine φ τ υ ο α :=
  Prog.zoom Context.user (fun u s => { s with user := u }) Access.callback m

section

variable (data : Bytes)

def readByte (i : Nat) : Machine φ τ υ ο UInt8 :=
  match data[i]? with
  | some byte => pure byte
  | none => Prog.crash (.read i)

/-- The `n` bytes from an index on. -/
def readBytes (i : Nat) : Nat → Machine φ τ υ ο Bytes
  | 0 => pure []
  | n + 1 => do
    let byte ← readByte data i
    let rest ← readBytes (i + 1) n
    return byte :: rest

/-- The big-endian number of `n` bytes at an index. -/
def load (i n : Nat) : Machine φ τ υ ο Nat := do
  let bytes ← readBytes data i n
  return ofBigEndian bytes

end

/-- `trail - 1`, as `unsigned int`. -/
def trailLess (trail : Nat) : Nat := (trail + (2 ^ 32 - 1)) % 2 ^ 32

/-- The signed number with the low `k` bits of `n`. -/
def toSigned (k n : Nat) : Int := if n < 2 ^ (k - 1) then n else n - 2 ^ k

def moveTo (p : Nat) : Machine φ τ υ ο Unit := Prog.update fun s => { s with p := p }

def setStack (stack : List (Stack ο)) : Machine φ τ υ ο Unit :=
  Prog.update fun s => { s with stack := stack }

def headerAgain : Machine φ τ υ ο Label := do
  Prog.update fun s => { s with cs := .header, p := s.p + 1 }
  return .again

def finish (obj : ο) : Machine φ τ υ ο Label := do
  Prog.update fun s => { s with data := some obj, p := s.p + 1 }
  return .finish

/-- `again_fixed_trail`, up to the label `_fixed_trail_again` and its `++p`. -/
def againFixedTrail (cs : UnpackState) (trail : Nat) : Machine φ τ υ ο Label := do
  Prog.update fun s => { s with cs := cs, trail := trail, p := s.p + 1 }
  return .again

variable (cb : Callbacks φ τ υ ο)

/-- `_push`: hand an object to the innermost container, and go on with the
container when it is complete. -/
def push : List (Stack ο) → ο → Machine φ τ υ ο Label
  | [], obj => finish obj
  | c :: rest, obj =>
    match c.ct with
    | .arrayItem => do
      let container ← call (cb.arrayItem c.obj obj)
      if c.count = 1 then do
        setStack rest
        push rest container
      else do
        setStack ({ c with obj := container, count := c.count - 1 } :: rest)
        headerAgain
    | .mapKey => do
      setStack ({ c with mapKey := some obj, ct := .mapValue } :: rest)
      headerAgain
    | .mapValue =>
      match c.mapKey with
      | none => Prog.crash .noKey
      | some key => do
        let container ← call (cb.mapItem c.obj key obj)
        if c.count = 1 then do
          setStack rest
          push rest container
        else do
          setStack ({ c with obj := container, count := c.count - 1, ct := .mapKey } :: rest)
          headerAgain

/-- `_push` with the parser's own stack. -/
def pushObject (obj : ο) : Machine φ τ υ ο Label := do
  let s ← Prog.read
  push cb s.stack obj

/-- `push_simple_value`, `push_fixed_value` and `push_variable_value`. -/
def pushValue (value : Value) : Machine φ τ υ ο Label := do
  let obj ← call (cb.value value)
  pushObject cb obj

def startContainer (func : Nat → Prog Unit φ τ υ ο) (count : Nat) (ct : ContainerType) :
    Machine φ τ υ ο Label := do
  let s ← Prog.read
  Prog.failIf (embedStackSize ≤ s.stack.length) ()
  let obj ← call (func count)
  if count = 0 then pushObject cb obj
  else do
    setStack (⟨obj, count, ct, none⟩ :: s.stack)
    headerAgain

section

variable (data : Bytes)

/-- The case `0xd9`: a string with a length of one byte, taken as it is. -/
def raw8 : Machine φ τ υ ο Label := do
  let s ← Prog.read
  let trail ← load data (s.p + 1) 1
  Prog.update fun s => { s with trail := trail, p := s.p + 2 + trailLess trail, cs := .raw8 }
  let bytes ← readBytes data (s.p + 2) trail
  pushValue cb (.raw bytes)

/-- The inner switch of the header state, over `0xc0` to `0xdf`. -/
def variableHeader (byte : Nat) : Machine φ τ υ ο Label :=
  match byte with
  | 0xc0 => pushValue cb .nil
  | 0xc1 => headerAgain
  | 0xc2 => pushValue cb .false
  | 0xc3 => pushValue cb .true
  | 0xc4 => againFixedTrail .bin8 1
  | 0xc5 => againFixedTrail .bin16 2
  | 0xc6 => againFixedTrail .bin32 4
  | 0xca => againFixedTrail .float 4
  | 0xcb => againFixedTrail .double 8
  | 0xcc => againFixedTrail .uint8 1
  | 0xcd => againFixedTrail .uint16 2
  | 0xce => againFixedTrail .uint32 4
  | 0xcf => againFixedTrail .uint64 8
  | 0xd0 => againFixedTrail .int8 1
  | 0xd1 => againFixedTrail .int16 2
  | 0xd2 => againFixedTrail .int32 4
  | 0xd3 => againFixedTrail .int64 8
  | 0xd9 => raw8 cb data
  | 0xda => againFixedTrail .raw16 2
  | 0xdb => againFixedTrail .raw32 4
  | 0xdc => againFixedTrail .array16 2
  | 0xdd => againFixedTrail .array32 4
  | 0xde => againFixedTrail .map16 2
  | 0xdf => againFixedTrail .map32 4
  | _ => Prog.fail ()

/-- The case `CS_HEADER`, on the byte at the position. -/
def header (byte : Nat) : Machine φ τ υ ο Label :=
  if byte ≤ 0x7f then pushValue cb (.uint8 byte)
  else if byte ≤ 0x8f then startContainer cb cb.map (byte % 16) .mapKey
  else if byte ≤ 0x9f then startContainer cb cb.array (byte % 16) .arrayItem
  else if byte ≤ 0xbf then
    if byte % 32 = 0 then do
      Prog.update fun s => { s with trail := 0 }
      pushValue cb (.raw [])
    else againFixedTrail .rawValue (byte % 32)
  else if byte ≤ 0xdf then variableHeader cb data byte
  else pushValue cb (.int8 (toSigned 8 byte))

/-- `again_fixed_trail_if_zero` after a length: the bytes follow, unless there are
none. -/
def againUnlessZero (cs : UnpackState) (trail : Nat) (ifZero : Value) : Machine φ τ υ ο Label :=
  if trail = 0 then do
    Prog.update fun s => { s with trail := 0 }
    pushValue cb ifZero
  else againFixedTrail cs trail

/-- The inner switch of the label `default`, with `n` the position of the bytes
waited for. -/
def trailed (cs : UnpackState) (trail n : Nat) : Machine φ τ υ ο Label :=
  match cs with
  | .float => do
    let bits ← load data n 4
    pushValue cb (.float bits)
  | .double => do
    let bits ← load data n 8
    pushValue cb (.double bits)
  | .uint8 => do
    let value ← load data n 1
    pushValue cb (.uint8 value)
  | .uint16 => do
    let value ← load data n 2
    pushValue cb (.uint16 value)
  | .uint32 => do
    let value ← load data n 4
    pushValue cb (.uint32 value)
  | .uint64 => do
    let value ← load data n 8
    pushValue cb (.uint64 value)
  | .int8 => do
    let value ← load data n 1
    pushValue cb (.int8 (toSigned 8 value))
  | .int16 => do
    let value ← load data n 2
    pushValue cb (.int16 (toSigned 16 value))
  | .int32 => do
    let value ← load data n 4
    pushValue cb (.int32 (toSigned 32 value))
  | .int64 => do
    let value ← load data n 8
    pushValue cb (.int64 (toSigned 64 value))
  | .bin8 => do
    let length ← load data n 1
    againUnlessZero cb .binValue length (.bin [])
  | .bin16 => do
    let length ← load data n 2
    againUnlessZero cb .binValue length (.bin [])
  | .bin32 => do
    let length ← load data n 4
    againUnlessZero cb .binValue length (.bin [])
  | .binValue => do
    let bytes ← readBytes data n trail
    pushValue cb (.bin bytes)
  | .raw16 => do
    let length ← load data n 2
    againUnlessZero cb .rawValue length (.raw [])
  | .raw32 => do
    let length ← load data n 4
    againUnlessZero cb .rawValue length (.raw [])
  | .rawValue => do
    let bytes ← readBytes data n trail
    pushValue cb (.raw bytes)
  | .array16 => do
    let count ← load data n 2
    startContainer cb cb.array count .arrayItem
  | .array32 => do
    let count ← load data n 4
    startContainer cb cb.array count .arrayItem
  | .map16 => do
    let count ← load data n 2
    startContainer cb cb.map count .mapKey
  | .map32 => do
    let count ← load data n 4
    startContainer cb cb.map count .mapKey
  | .header | .raw8 => Prog.fail ()

/-- The label `default`: wait for `trail` bytes, or take them. -/
def fixedTrail : Machine φ τ υ ο Label := do
  let s ← Prog.read
  if WordSize.eight.sub data.length s.p < s.trail then return .out
  else do
    moveTo (s.p + trailLess s.trail)
    trailed cb data s.cs s.trail s.p

def step : Machine φ τ υ ο Label := do
  let s ← Prog.read
  if s.p = data.length then return .out
  else if s.cs = .header then do
    let byte ← readByte data s.p
    header cb data byte.toNat
  else fixedTrail cb data

/-- What `template_execute` returns when it does not fail. -/
inductive Ret where
  | continue | extraBytes
  deriving DecidableEq

/-- `template_execute`, at most `fuel` steps long. -/
def execute : Nat → Machine φ τ υ ο Ret
  | 0 => Prog.exhausted
  | fuel + 1 => do
    let label ← step cb data
    match label with
    | .again => execute fuel
    | .out => return .continue
    | .finish => return .extraBytes

end

/-- `template_init`. -/
def Context.init (user : υ) : Context υ ο := ⟨0, .header, 0, [], none, user⟩

end PhpExts.Msgpack
