import PhpExts.Msgpack.Template

/-!
# The msgpack format

A `Msg` is one msgpack object together with the way it is encoded: the type byte
of every node and the width of every length. The type bytes are the ones the
parser accepts, and `0xc1`, which it passes over, may stand before an object.
`Msg.bytes` is the encoding; `Msg.Fits` says that every number and length fits
the width chosen for it.

`Msg.eval` is the meaning of an object for a set of callbacks: the calls in the
order of the data, without a stack, a state or a position.
-/

namespace PhpExts.Msgpack

open PhpExts.Zend PhpExts.Library

inductive NumberType where
  | float | double
  | uint8 | uint16 | uint32 | uint64
  | int8 | int16 | int32 | int64
  deriving DecidableEq

namespace NumberType

def header : NumberType → UInt8
  | float => 0xca | double => 0xcb
  | uint8 => 0xcc | uint16 => 0xcd | uint32 => 0xce | uint64 => 0xcf
  | int8 => 0xd0 | int16 => 0xd1 | int32 => 0xd2 | int64 => 0xd3

def width : NumberType → Nat
  | uint8 | int8 => 1
  | uint16 | int16 => 2
  | float | uint32 | int32 => 4
  | double | uint64 | int64 => 8

def value : NumberType → Nat → Value
  | float, bits => .float bits
  | double, bits => .double bits
  | uint8, n => .uint8 n
  | uint16, n => .uint16 n
  | uint32, n => .uint32 n
  | uint64, n => .uint64 n
  | int8, n => .int8 (toSigned 8 n)
  | int16, n => .int16 (toSigned 16 n)
  | int32, n => .int32 (toSigned 32 n)
  | int64, n => .int64 (toSigned 64 n)

end NumberType

inductive RawWidth where
  | fix | w8 | w16 | w32
  deriving DecidableEq

inductive BinWidth where
  | w8 | w16 | w32
  deriving DecidableEq

inductive CountWidth where
  | fix | w16 | w32
  deriving DecidableEq

def RawWidth.limit : RawWidth → Nat
  | fix => 32 | w8 => 256 | w16 => 65536 | w32 => 4294967296

def BinWidth.limit : BinWidth → Nat
  | w8 => 256 | w16 => 65536 | w32 => 4294967296

def CountWidth.limit : CountWidth → Nat
  | fix => 16 | w16 => 65536 | w32 => 4294967296

def RawWidth.header : RawWidth → Nat → Bytes
  | fix, n => [UInt8.ofNat (0xa0 + n)]
  | w8, n => 0xd9 :: bigEndian 1 n
  | w16, n => 0xda :: bigEndian 2 n
  | w32, n => 0xdb :: bigEndian 4 n

def BinWidth.header : BinWidth → Nat → Bytes
  | w8, n => 0xc4 :: bigEndian 1 n
  | w16, n => 0xc5 :: bigEndian 2 n
  | w32, n => 0xc6 :: bigEndian 4 n

def CountWidth.arrayHeader : CountWidth → Nat → Bytes
  | fix, n => [UInt8.ofNat (0x90 + n)]
  | w16, n => 0xdc :: bigEndian 2 n
  | w32, n => 0xdd :: bigEndian 4 n

def CountWidth.mapHeader : CountWidth → Nat → Bytes
  | fix, n => [UInt8.ofNat (0x80 + n)]
  | w16, n => 0xde :: bigEndian 2 n
  | w32, n => 0xdf :: bigEndian 4 n

/-- An object that holds no other. `negFixnum n` is the number `n - 32`. -/
inductive Scalar where
  | fixnum (n : Nat)
  | negFixnum (n : Nat)
  | nil | false | true
  | number (t : NumberType) (bits : Nat)
  | raw (w : RawWidth) (bytes : Bytes)
  | bin (w : BinWidth) (bytes : Bytes)
  deriving DecidableEq

namespace Scalar

def bytes : Scalar → Bytes
  | fixnum n => [UInt8.ofNat n]
  | negFixnum n => [UInt8.ofNat (0xe0 + n)]
  | nil => [0xc0]
  | false => [0xc2]
  | true => [0xc3]
  | number t bits => t.header :: bigEndian t.width bits
  | raw w bytes => w.header bytes.length ++ bytes
  | bin w bytes => w.header bytes.length ++ bytes

def Fits : Scalar → Prop
  | fixnum n => n < 128
  | negFixnum n => n < 32
  | number t bits => bits < 256 ^ t.width
  | raw w bytes => bytes.length < w.limit
  | bin w bytes => bytes.length < w.limit
  | _ => True

def value : Scalar → Value
  | fixnum n => .uint8 n
  | negFixnum n => .int8 (n - 32)
  | nil => .nil
  | false => .false
  | true => .true
  | number t bits => t.value bits
  | raw _ bytes => .raw bytes
  | bin _ bytes => .bin bytes

end Scalar

inductive Msg where
  | scalar (s : Scalar)
  | array (w : CountWidth) (items : List Msg)
  | map (w : CountWidth) (pairs : List (Msg × Msg))
  | pad (m : Msg)

mutual

def Msg.bytes : Msg → Bytes
  | .scalar s => s.bytes
  | .array w items => w.arrayHeader items.length ++ itemsBytes items
  | .map w pairs => w.mapHeader pairs.length ++ pairsBytes pairs
  | .pad m => 0xc1 :: m.bytes

def itemsBytes : List Msg → Bytes
  | [] => []
  | m :: rest => m.bytes ++ itemsBytes rest

def pairsBytes : List (Msg × Msg) → Bytes
  | [] => []
  | (k, v) :: rest => k.bytes ++ (v.bytes ++ pairsBytes rest)

end

theorem length_itemsBytes_cons (m : Msg) (rest : List Msg) :
    (itemsBytes (m :: rest)).length = m.bytes.length + (itemsBytes rest).length := by
  rw [itemsBytes, List.length_append]

theorem length_pairsBytes_cons (k v : Msg) (rest : List (Msg × Msg)) :
    (pairsBytes ((k, v) :: rest)).length =
      k.bytes.length + v.bytes.length + (pairsBytes rest).length := by
  rw [pairsBytes, List.length_append, List.length_append, Nat.add_assoc]

mutual

def Msg.Fits : Msg → Prop
  | .scalar s => s.Fits
  | .array w items => items.length < w.limit ∧ ItemsFit items
  | .map w pairs => pairs.length < w.limit ∧ PairsFit pairs
  | .pad m => m.Fits

def ItemsFit : List Msg → Prop
  | [] => True
  | m :: rest => m.Fits ∧ ItemsFit rest

def PairsFit : List (Msg × Msg) → Prop
  | [] => True
  | (k, v) :: rest => k.Fits ∧ v.Fits ∧ PairsFit rest

end

mutual

def Msg.depth : Msg → Nat
  | .scalar _ => 0
  | .array _ items => itemsDepth items + 1
  | .map _ pairs => pairsDepth pairs + 1
  | .pad m => m.depth

def itemsDepth : List Msg → Nat
  | [] => 0
  | m :: rest => max m.depth (itemsDepth rest)

def pairsDepth : List (Msg × Msg) → Nat
  | [] => 0
  | (k, v) :: rest => max k.depth (max v.depth (pairsDepth rest))

end

/-- The first and the last position of a string with a header `0xd9` at an
offset. -/
def Scalar.raw8Spans (offset : Nat) : Scalar → List (Nat × Nat)
  | .raw .w8 bytes => [(offset, offset + 2 + bytes.length)]
  | _ => []

mutual

/-- Where the strings with a header `0xd9` begin and end, in an object at an
offset. -/
def Msg.raw8Spans (offset : Nat) : Msg → List (Nat × Nat)
  | .scalar s => s.raw8Spans offset
  | .array w items => itemsRaw8Spans (offset + (w.arrayHeader items.length).length) items
  | .map w pairs => pairsRaw8Spans (offset + (w.mapHeader pairs.length).length) pairs
  | .pad m => m.raw8Spans (offset + 1)

def itemsRaw8Spans (offset : Nat) : List Msg → List (Nat × Nat)
  | [] => []
  | m :: rest => m.raw8Spans offset ++ itemsRaw8Spans (offset + m.bytes.length) rest

def pairsRaw8Spans (offset : Nat) : List (Msg × Msg) → List (Nat × Nat)
  | [] => []
  | (k, v) :: rest =>
    k.raw8Spans offset ++ (v.raw8Spans (offset + k.bytes.length) ++
      pairsRaw8Spans (offset + k.bytes.length + v.bytes.length) rest)

end

variable {φ τ υ ο : Type} (cb : Callbacks φ τ υ ο)

mutual

def Msg.eval : Msg → Prog Unit φ τ υ ο
  | .scalar s => cb.value s.value
  | .array _ items => do
    let container ← cb.array items.length
    evalItems items container
  | .map _ pairs => do
    let container ← cb.map pairs.length
    evalPairs pairs container
  | .pad m => m.eval

def evalItems : List Msg → ο → Prog Unit φ τ υ ο
  | [], container => pure container
  | m :: rest, container => do
    let obj ← m.eval
    let container ← cb.arrayItem container obj
    evalItems rest container

def evalPairs : List (Msg × Msg) → ο → Prog Unit φ τ υ ο
  | [], container => pure container
  | (k, v) :: rest, container => do
    let key ← k.eval
    let val ← v.eval
    let container ← cb.mapItem container key val
    evalPairs rest container

end

end PhpExts.Msgpack
