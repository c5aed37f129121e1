import PhpExts.Swoole.SerializeRoundTrip
import PhpExts.Zend.HashTable

/-!
# Reading a MySQL response

The client appends what it receives to its buffer and calls `mysql_response`, which goes on from
the state and the offset of the call before: it reads the first packet, the packets of the columns
up to an EOF packet, and the packets of the rows up to another one. It answers `SW_ERR` while
something is missing and `SW_OK` when the response is complete.

The local number of bytes left is an `int`, and unlike the offset it is not reset when a state
is left.
-/

namespace PhpExts.Swoole.Mysql

open PhpExts.Zend
open Serialize (leNat leBytes)

/-- What a C `int` holds of a number. -/
def toInt (n : Nat) : Int :=
  if n % 2 ^ 32 < 2 ^ 31 then (n % 2 ^ 32 : Nat) else (n % 2 ^ 32 : Nat) - (2 ^ 32 : Int)

/-- `mysql_uint2korr`. What is behind the received bytes is read as zero. -/
def mysqlUint2korr (A : Bytes) : Nat := leNat (A.take 2)

/-- `mysql_uint3korr`. -/
def mysqlUint3korr (A : Bytes) : Nat := leNat (A.take 3)

/-- `mysql_uint4korr`. -/
def mysqlUint4korr (A : Bytes) : Nat := leNat (A.take 4)

/-- `mysql_uint8korr`. -/
def mysqlUint8korr (A : Bytes) : Nat := leNat (A.take 8)

/-- `mysql_lcb_ll`: the number, whether it stands for `NULL`, and how many bytes it has. -/
def mysqlLcbLl : Bytes → Option (Nat × Bool × Nat)
  | [] => none
  | byte :: m =>
    if byte = 251 then some (0, true, 1)
    else if byte = 252 then
      if m.length + 1 < 3 then none else some (mysqlUint2korr m, false, 3)
    else if byte = 253 then
      -- four bytes are enough, but five are asked for
      if m.length + 1 < 5 then none else some (mysqlUint3korr m, false, 4)
    else if byte = 254 then
      if m.length + 1 < 9 then none else some (mysqlUint8korr m, false, 9)
    else some (byte.toNat, false, 1)

structure MysqlField where
  catalog : Bytes
  db : Bytes
  table : Bytes
  orgTable : Bytes
  name : Bytes
  orgName : Bytes
  charsetnr : Nat
  length : Nat
  type : Nat
  flags : Nat
  decimals : Nat
  defaultValue : Option Bytes
  deriving DecidableEq

/-- What `ecalloc` makes. -/
def MysqlField.zero : MysqlField := ⟨[], [], [], [], [], [], 0, 0, 0, 0, 0, none⟩

/-- A row: by the names of the columns, their values, where none is `NULL`. -/
abbrev Row : Type := HashTable (Option Bytes)

inductive ReadState where
  | query
  | readStart
  | readField
  | readRow
  | readEnd
  | closed
  deriving DecidableEq

/-- `mysql_response_t`. The text of an error is where it starts in the buffer, and its length. -/
structure MysqlResponse where
  columns : List MysqlField
  numColumn : Nat
  indexColumn : Nat
  numRow : Nat
  waitRecv : Bool
  responseType : UInt8
  packetLength : Nat
  packetNumber : UInt8
  errorCode : Nat
  warnings : Nat
  statusCode : Nat
  statusMsg : Bytes
  serverMsg : Nat
  lServerMsg : Nat
  affectedRows : Nat
  insertId : Nat
  resultArray : Option (List Row)

/-- The response after `bzero`. -/
def MysqlResponse.zero : MysqlResponse :=
  ⟨[], 0, 0, 0, false, 0, 0, 0, 0, 0, 0, [], 0, 0, 0, 0, none⟩

/-- What is used of `mysql_client`: `str` is what the buffer has of received bytes. -/
structure MysqlClient where
  state : ReadState
  str : Bytes
  offset : Nat
  response : MysqlResponse

def MysqlClient.asked : MysqlClient := ⟨.readStart, [], 0, .zero⟩

inductive Ret where
  | err
  | ok
  deriving DecidableEq

namespace MysqlClient

variable (client : MysqlClient)

def bytesAt (p : Nat) : Bytes := client.str.drop p

def byte (p : Nat) : UInt8 := client.str.getD p 0

/-- `response.packet_length` and `response.packet_number` are those of the packet at a position. -/
def withHeader (p : Nat) : MysqlClient :=
  { client with response := { client.response with
      packetLength := mysqlUint3korr (client.bytesAt p), packetNumber := client.byte (p + 3) } }

def waiting : MysqlClient :=
  { client with response := { client.response with waitRecv := true } }

end MysqlClient

/-! ## Fields and rows -/

def decodeString (buf : Bytes) : Option (Bytes × Bytes) :=
  match mysqlLcbLl buf with
  | none => none
  | some (size, _, count) =>
    if (buf.drop count).length < size then none
    else some ((buf.drop count).take size, (buf.drop count).drop size)

/-- `mysql_decode_field`; nothing is returned for an error. The default value is not in the
packets of a query. -/
def mysqlDecodeField (buf : Bytes) : Option MysqlField := do
  let (catalog, buf) ← decodeString buf
  let (db, buf) ← decodeString buf
  let (table, buf) ← decodeString buf
  let (orgTable, buf) ← decodeString buf
  let (name, buf) ← decodeString buf
  let (orgName, buf) ← decodeString buf
  if buf.length < 13 then none
  else
    -- a `char`, with its sign
    let decimals := (buf.getD 10 0).toNat
    let col : MysqlField :=
      ⟨catalog, db, table, orgTable, name, orgName, mysqlUint2korr (buf.drop 1),
        mysqlUint4korr (buf.drop 3), (buf.getD 7 0).toNat, mysqlUint2korr (buf.drop 8),
        if decimals < 128 then decimals else decimals + 0xffffff00, none⟩
    if (buf.drop 13).length = 0 then some col
    else do
      let (defaultValue, _) ← decodeString (buf.drop 13)
      some { col with defaultValue := some defaultValue }

inductive Stored where
  | null
  | string
  | nothing
  deriving DecidableEq

/-- The `switch` over the type of a column: there is no case for `SW_MYSQL_TYPE_ENUM`,
`SW_MYSQL_TYPE_SET` and `SW_MYSQL_TYPE_GEOMETRY`. -/
def stored (type : Nat) : Stored :=
  if type = 6 then .null
  else if type ≤ 16 ∨ type = 246 ∨ 249 ≤ type ∧ type ≤ 254 then .string
  else .nothing

/-- `add_assoc_null` and `sw_add_assoc_stringl`: the name ends at its first null byte. -/
def addAssoc (w : WordSize) (row : Row) (name : Bytes) (value : Option Bytes) : Row :=
  row.symtableUpdate w (name.takeWhile (· ≠ 0)) value

/-- The loop of `mysql_decode_row` over the columns. -/
def decodeRowLoop (w : WordSize) : List MysqlField → Bytes → Row → Option Row
  | [], _, row => some row
  | column :: columns, buf, row =>
    match mysqlLcbLl buf with
    | none => none
    | some (len, nul, count) =>
      if (buf.drop count).length < len then none
      else if nul then decodeRowLoop w columns (buf.drop count) (addAssoc w row column.name none)
      else
        decodeRowLoop w columns ((buf.drop count).drop len) (match stored column.type with
          | .null => addAssoc w row column.name none
          | .string => addAssoc w row column.name (some ((buf.drop count).take len))
          | .nothing => row)

def mysqlDecodeRow (w : WordSize) (response : MysqlResponse) (buf : Bytes) : Option Row :=
  decodeRowLoop w response.columns buf .empty

def mysqlReadEof (client : MysqlClient) (buffer : Nat) (nBuf : Int) : MysqlClient × Ret :=
  if nBuf < 9 then (client.waiting, .err)
  else
    let client := client.withHeader buffer
    if client.byte (buffer + 4) ≠ 0xfe then (client, .err)
    else
      ({ client with response := { client.response with
          warnings := mysqlUint2korr (client.bytesAt (buffer + 5)),
          statusCode := mysqlUint2korr (client.bytesAt (buffer + 7)) } }, .ok)

/-- The loop of `mysql_read_columns`, by how many columns are missing; an error if there is not
enough data, and otherwise where the EOF packet is looked for. -/
def readColumnsLoop : Nat → MysqlClient → Except MysqlClient (MysqlClient × Nat)
  | 0, client => .ok (client, client.offset)
  | missing + 1, client =>
    let nBuf : Nat := (client.str.length - client.offset) % 2 ^ 32
    if nBuf < 4 then .error client
    else
      let length := mysqlUint3korr (client.bytesAt client.offset)
      if nBuf - 4 < length then
        .error { client with response := { client.response with packetLength := length } }
      else
        let client := client.withHeader client.offset
        match mysqlDecodeField ((client.bytesAt (client.offset + 4)).take length) with
        | none => .ok (client, client.offset + 4)
        | some col =>
          readColumnsLoop missing { client with
            offset := client.offset + (length + 4),
            response := { client.response with
              columns := client.response.columns.set client.response.indexColumn col,
              indexColumn := client.response.indexColumn + 1 } }

def mysqlReadColumns (client : MysqlClient) : MysqlClient × Ret :=
  match readColumnsLoop (client.response.numColumn - client.response.indexColumn) client with
  | .error client => (client, .err)
  | .ok (client, buffer) =>
    match mysqlReadEof client buffer (toInt (client.str.length - buffer)) with
    | (client, .err) => (client, .err)
    | (client, .ok) =>
      ({ client with
          offset := buffer + 9,
          response := { client.response with
            resultArray := some (client.response.resultArray.getD []) } }, .ok)

/-- The loop of `mysql_read_rows`: every turn takes at least four bytes. -/
def readRowsLoop (w : WordSize) : Nat → MysqlClient → MysqlClient × Ret
  | 0, client => (client, .err)
  | fuel + 1, client =>
    let nBuf : Nat := (client.str.length - client.offset) % 2 ^ 32
    if nBuf = 0 then (client, .err)
    else if nBuf < 4 then (client.waiting, .err)
    else
      match if nBuf = 9 then mysqlReadEof client client.offset nBuf else (client, .err) with
      | (client, .ok) => (client, .ok)
      | (client, .err) =>
        let client := client.withHeader client.offset
        let length := client.response.packetLength
        if nBuf - 4 < length then (client.waiting, .err)
        else
          match mysqlDecodeRow w client.response
              ((client.bytesAt (client.offset + 4)).take length) with
          | none => (client, .err)
          | some row =>
            readRowsLoop w fuel { client with
              offset := client.offset + (length + 4),
              response := { client.response with
                numRow := (client.response.numRow + 1) % 2 ^ 32,
                resultArray := some (client.response.resultArray.getD [] ++ [row]) } }

def mysqlReadRows (w : WordSize) (client : MysqlClient) : MysqlClient × Ret :=
  readRowsLoop w (client.str.length - client.offset) client

/-- The case `SW_MYSQL_STATE_READ_ROW`. -/
def caseReadRow (w : WordSize) (client : MysqlClient) : MysqlClient × Ret :=
  match mysqlReadRows w client with
  | (client, .err) => (client, .err)
  | (client, .ok) => ({ client with state := .readEnd }, .ok)

/-- The case `SW_MYSQL_STATE_READ_FIELD`, and the loop from there. -/
def caseReadField (w : WordSize) (nBuf : Int) (client : MysqlClient) : MysqlClient × Ret :=
  match mysqlReadColumns client with
  | (client, .err) => (client, .err)
  | (client, .ok) =>
    let client := { client with state := .readRow }
    if 0 < nBuf then caseReadRow w client else (client, .ok)

/-- A number of an OK packet, where the cursor is behind it and what is left then: the failure is
a length of -1. -/
def okNumber (client : MysqlClient) (p : Nat) (nBuf : Int) : Nat × Nat × Int :=
  match mysqlLcbLl ((client.bytesAt p).take nBuf.toNat) with
  | none => (0, p - 1, nBuf + 1)
  | some (value, _, count) => (value, p + count, nBuf - count)

def readError (client : MysqlClient) (p : Nat) : MysqlClient × Ret :=
  ({ client with
      state := .readEnd,
      response := { client.response with
        errorCode := mysqlUint2korr (client.bytesAt p),
        statusMsg := (client.bytesAt (p + 3)).take 5,
        serverMsg := p + 8,
        lServerMsg := (client.response.packetLength + 2 ^ 16 - 9) % 2 ^ 16 } }, .ok)

def readEof (client : MysqlClient) (p : Nat) : MysqlClient × Ret :=
  ({ client with
      state := .readEnd,
      response := { client.response with
        warnings := mysqlUint2korr (client.bytesAt p),
        statusCode := mysqlUint2korr (client.bytesAt (p + 2)) } }, .ok)

def readOk (client : MysqlClient) (p : Nat) (nBuf : Int) : MysqlClient × Ret :=
  let (affectedRows, p, nBuf) := okNumber client p nBuf
  let (insertId, p, _) := okNumber client p nBuf
  ({ client with
      state := .readEnd,
      response := { client.response with
        affectedRows := affectedRows,
        insertId := insertId,
        statusCode := mysqlUint2korr (client.bytesAt p),
        warnings := mysqlUint2korr (client.bytesAt (p + 2)) } }, .ok)

def readResultSet (w : WordSize) (client : MysqlClient) (p : Nat) (nBuf : Int) :
    MysqlClient × Ret :=
  match mysqlLcbLl ((client.bytesAt (p - 1)).take (nBuf + 1).toNat) with
  | none => ({ client with response := { client.response with numColumn := 0 } }, .err)
  | some (numColumn, _, count) =>
    let client := { client with
      state := .readField,
      offset := client.offset + (4 + count),
      response := { client.response with
        numColumn := numColumn,
        columns := List.replicate numColumn .zero } }
    if 0 < nBuf then caseReadField w nBuf client else (client, .ok)

/-- The case `SW_MYSQL_STATE_READ_START`. -/
def caseReadStart (w : WordSize) (nBuf : Int) (client : MysqlClient) : MysqlClient × Ret :=
  if client.str.length - client.offset < 5 then (client.waiting, .err)
  else
    let client := client.withHeader client.offset
    if nBuf - 4 < client.response.packetLength then (client.waiting, .err)
    else
      let type := client.byte (client.offset + 4)
      let client := { client with response := { client.response with responseType := type } }
      let p := client.offset + 5
      if type = 0xff then readError client p
      else if type = 0xfe then readEof client p
      else if type = 0 then readOk client p (nBuf - 5)
      else readResultSet w client p (nBuf - 5)

/-- `mysql_response`. Its loop goes through the states in their order. -/
def mysqlResponse (w : WordSize) (client : MysqlClient) : MysqlClient × Ret :=
  let nBuf := toInt (client.str.length - client.offset)
  if 0 < nBuf then
    match client.state with
    | .readStart => caseReadStart w nBuf client
    | .readField => caseReadField w nBuf client
    | .readRow => caseReadRow w client
    | .query | .readEnd | .closed => (client, .err)
  else (client, .ok)

/-- `swoole_mysql_onRead` appends what has been received, and calls. -/
def received (w : WordSize) (client : MysqlClient) (chunk : Bytes) : MysqlClient × Ret :=
  mysqlResponse w { client with str := client.str ++ chunk }

/-- The calls for all chunks, with what they return. -/
def run (w : WordSize) : MysqlClient → List Bytes → MysqlClient × List Ret
  | client, [] => (client, [])
  | client, chunk :: chunks =>
    let (client, ret) := received w client chunk
    let (client, rets) := run w client chunks
    (client, ret :: rets)

end PhpExts.Swoole.Mysql
