import PhpExts.Zend.UserCode
import PhpExts.Library.BigEndian

/-!
# The igbinary format

The type bytes of `enum igbinary_type`, and the warnings the decoder reports.
-/

namespace PhpExts.Igbinary

open PhpExts.Zend

/-- `enum igbinary_type`. -/
inductive IgType where
  | null
  | ref8 | ref16 | ref32
  | boolFalse | boolTrue
  | long8p | long8n | long16p | long16n | long32p | long32n
  | double
  | stringEmpty
  | stringId8 | stringId16 | stringId32
  | string8 | string16 | string32
  | array8 | array16 | array32
  | object8 | object16 | object32
  | objectId8 | objectId16 | objectId32
  | objectSer8 | objectSer16 | objectSer32
  | long64p | long64n
  | objref8 | objref16 | objref32
  | ref
  deriving DecidableEq

namespace IgType

def toByte : IgType → UInt8
  | null => 0x00
  | ref8 => 0x01 | ref16 => 0x02 | ref32 => 0x03
  | boolFalse => 0x04 | boolTrue => 0x05
  | long8p => 0x06 | long8n => 0x07 | long16p => 0x08 | long16n => 0x09
  | long32p => 0x0a | long32n => 0x0b
  | double => 0x0c
  | stringEmpty => 0x0d
  | stringId8 => 0x0e | stringId16 => 0x0f | stringId32 => 0x10
  | string8 => 0x11 | string16 => 0x12 | string32 => 0x13
  | array8 => 0x14 | array16 => 0x15 | array32 => 0x16
  | object8 => 0x17 | object16 => 0x18 | object32 => 0x19
  | objectId8 => 0x1a | objectId16 => 0x1b | objectId32 => 0x1c
  | objectSer8 => 0x1d | objectSer16 => 0x1e | objectSer32 => 0x1f
  | long64p => 0x20 | long64n => 0x21
  | objref8 => 0x22 | objref16 => 0x23 | objref32 => 0x24
  | ref => 0x25

/-- The type of a byte; the other bytes fall to the `default` of every switch. -/
def ofByte (byte : UInt8) : Option IgType :=
  match byte.toNat with
  | 0x00 => some null
  | 0x01 => some ref8 | 0x02 => some ref16 | 0x03 => some ref32
  | 0x04 => some boolFalse | 0x05 => some boolTrue
  | 0x06 => some long8p | 0x07 => some long8n | 0x08 => some long16p | 0x09 => some long16n
  | 0x0a => some long32p | 0x0b => some long32n
  | 0x0c => some double
  | 0x0d => some stringEmpty
  | 0x0e => some stringId8 | 0x0f => some stringId16 | 0x10 => some stringId32
  | 0x11 => some string8 | 0x12 => some string16 | 0x13 => some string32
  | 0x14 => some array8 | 0x15 => some array16 | 0x16 => some array32
  | 0x17 => some object8 | 0x18 => some object16 | 0x19 => some object32
  | 0x1a => some objectId8 | 0x1b => some objectId16 | 0x1c => some objectId32
  | 0x1d => some objectSer8 | 0x1e => some objectSer16 | 0x1f => some objectSer32
  | 0x20 => some long64p | 0x21 => some long64n
  | 0x22 => some objref8 | 0x23 => some objref16 | 0x24 => some objref32
  | 0x25 => some ref
  | _ => none

@[simp] theorem ofByte_toByte (t : IgType) : ofByte t.toByte = some t := by
  cases t <;> rfl

end IgType

def formatVersion : Nat := 2

inductive Warning where
  | tooShort (size : Nat)
  | unsupportedVersion (version : Nat)
  | wrongEndianness (version : Nat)
  | textHeader (start : Bytes)
  | endOfData (function : String)
  | unknownType (function : String) (what : String) (type : UInt8) (position : Nat)
  | long64On32Bit
  | tooBigLong64
  | long64Placeholder
  | stringIndexOutOfBounds
  | dataTooSmall (size length : Nat)
  | noUnserializer (className : Bytes)
  | invalidReference
  | callbackNotFound (className : Bytes)
  | callbackDefinedNothing (className : Bytes)
  /-- User code has failed or raised an exception; the extension reports nothing. -/
  | userCode
  deriving DecidableEq

def hex (byte : UInt8) : String :=
  let digits := Nat.toDigits 16 byte.toNat
  String.ofList (if digits.length < 2 then '0' :: digits else digits)

def Warning.text : Warning → String
  | tooShort size =>
    "igbinary_unserialize_header: expected at least 5 bytes of data, got " ++ toString size
      ++ " byte(s)"
  | unsupportedVersion version =>
    "igbinary_unserialize_header: unsupported version: " ++ toString version
      ++ ", should be 1 or 2"
  | wrongEndianness version =>
    "igbinary_unserialize_header: unsupported version: " ++ toString version
      ++ ", should be 1 or 2 (wrong endianness?)"
  | textHeader start =>
    "igbinary_unserialize_header: unsupported version: \"" ++ Zend.text start
      ++ "\"..., should begin with a binary version header of "
      ++ "\"\\x00\\x00\\x00\\x01\" or \"\\x00\\x00\\x00\\x02\""
  | endOfData function => function ++ ": end-of-data"
  | unknownType function what type position =>
    function ++ ": unknown " ++ what ++ " '" ++ hex type ++ "', position " ++ toString position
  | long64On32Bit => "igbinary_unserialize_long: 64bit long on 32bit platform?"
  | tooBigLong64 => "igbinary_unserialize_long: too big 64bit long."
  | long64Placeholder => "igbinary_unserialize_long: 64bit long on 32bit platform"
  | stringIndexOutOfBounds => "igbinary_unserialize_string: string index is out-of-bounds"
  | dataTooSmall size length =>
    "igbinary_unserialize_array: data size " ++ toString size
      ++ " smaller that requested array length " ++ toString length ++ "."
  | noUnserializer className => "Class " ++ Zend.text className ++ " has no unserializer"
  | invalidReference => "igbinary_unserialize_ref: invalid reference"
  | callbackNotFound className => "defined (" ++ Zend.text className ++ ") but not found"
  | callbackDefinedNothing className =>
    "Function " ++ Zend.text className ++ "() hasn't defined the class it was called for"
  | userCode => ""

end PhpExts.Igbinary
