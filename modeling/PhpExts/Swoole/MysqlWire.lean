import PhpExts.Swoole.MysqlResponse

/-!
# The text protocol

The responses a server sends to a query, as packets of bytes, and what the decoding functions of
the client read in them.
-/

namespace PhpExts.Swoole.Mysql

open PhpExts.Zend
open Serialize (leNat leBytes leNat_leBytes leBytes_length)
open List (drop_left drop_succ_cons length_append)

def lenenc (n : Nat) : Bytes :=
  if n ≤ 250 then [UInt8.ofNat n]
  else if n < 2 ^ 16 then 252 :: leBytes 2 n
  else if n < 2 ^ 24 then 253 :: leBytes 3 n
  else 254 :: leBytes 8 n

def lenencString (s : Bytes) : Bytes := lenenc s.length ++ s

/-- The header of a packet has the length of the payload and the number of the packet. -/
def packet (number : UInt8) (payload : Bytes) : Bytes :=
  leBytes 3 payload.length ++ number :: payload

structure ColumnDef where
  number : UInt8
  catalog : Bytes
  db : Bytes
  table : Bytes
  orgTable : Bytes
  name : Bytes
  orgName : Bytes
  charsetnr : UInt16
  length : UInt32
  type : UInt8
  flags : UInt16
  decimals : UInt8

namespace ColumnDef

def fixed (col : ColumnDef) : Bytes :=
  12 :: leBytes 2 col.charsetnr.toNat ++ leBytes 4 col.length.toNat ++ col.type ::
    leBytes 2 col.flags.toNat ++ [col.decimals, 0, 0]

def payload (col : ColumnDef) : Bytes :=
  lenencString col.catalog ++ (lenencString col.db ++ (lenencString col.table ++
    (lenencString col.orgTable ++ (lenencString col.name ++ (lenencString col.orgName ++
      col.fixed)))))

def bytes (col : ColumnDef) : Bytes := packet col.number col.payload

def field (col : ColumnDef) : MysqlField where
  catalog := col.catalog
  db := col.db
  table := col.table
  orgTable := col.orgTable
  name := col.name
  orgName := col.orgName
  charsetnr := col.charsetnr.toNat
  length := col.length.toNat
  type := col.type.toNat
  flags := col.flags.toNat
  decimals :=
    if col.decimals.toNat < 128 then col.decimals.toNat else col.decimals.toNat + 0xffffff00
  defaultValue := none

end ColumnDef

/-- A row has a value or `NULL` for each column. -/
structure RowData where
  number : UInt8
  values : List (Option Bytes)

namespace RowData

def value : Option Bytes → Bytes
  | none => [251]
  | some s => lenencString s

def payload (row : RowData) : Bytes := row.values.flatMap value

def bytes (row : RowData) : Bytes := packet row.number row.payload

def store (w : WordSize) (row : Row) : ColumnDef × Option Bytes → Row
  | (col, none) => addAssoc w row col.name none
  | (col, some s) =>
    match stored col.type.toNat with
    | .null => addAssoc w row col.name none
    | .string => addAssoc w row col.name (some s)
    | .nothing => row

def entry (w : WordSize) (columns : List ColumnDef) (row : RowData) : Row :=
  (columns.zip row.values).foldl (store w) .empty

end RowData

structure EofPacket where
  number : UInt8
  warnings : UInt16
  status : UInt16

namespace EofPacket

def payload (eof : EofPacket) : Bytes :=
  254 :: leBytes 2 eof.warnings.toNat ++ leBytes 2 eof.status.toNat

def bytes (eof : EofPacket) : Bytes := packet eof.number eof.payload

end EofPacket

structure ResultSet where
  number : UInt8
  columns : List ColumnDef
  columnsEnd : EofPacket
  rows : List RowData
  rowsEnd : EofPacket

namespace ResultSet

def header (set : ResultSet) : Bytes := packet set.number (lenenc set.columns.length)

def afterColumns (set : ResultSet) : Bytes :=
  set.columnsEnd.bytes ++ (set.rows.flatMap RowData.bytes ++ set.rowsEnd.bytes)

def bytes (set : ResultSet) : Bytes :=
  set.header ++ (set.columns.flatMap ColumnDef.bytes ++ set.afterColumns)

structure WellFormed (set : ResultSet) : Prop where
  some_columns : set.columns ≠ []
  columns_lt : set.columns.length < 2 ^ 64
  column_lt : ∀ col ∈ set.columns, col.payload.length < 2 ^ 24 - 1
  row_width : ∀ row ∈ set.rows, row.values.length = set.columns.length
  row_lt : ∀ row ∈ set.rows, row.payload.length < 2 ^ 24 - 1

end ResultSet

structure OkPacket where
  number : UInt8
  affectedRows : UInt64
  insertId : UInt64
  status : UInt16
  warnings : UInt16
  info : Bytes

def OkPacket.payload (ok : OkPacket) : Bytes :=
  0 :: (lenenc ok.affectedRows.toNat ++ (lenenc ok.insertId.toNat ++
    (leBytes 2 ok.status.toNat ++ (leBytes 2 ok.warnings.toNat ++ ok.info))))

structure ErrPacket where
  number : UInt8
  errorCode : UInt16
  sqlState : Bytes
  message : Bytes

def ErrPacket.payload (err : ErrPacket) : Bytes :=
  255 :: leBytes 2 err.errorCode.toNat ++ (35 :: err.sqlState ++ err.message)

inductive Response where
  | ok (sent : OkPacket)
  | err (sent : ErrPacket)
  | resultSet (set : ResultSet)

namespace Response

def bytes : Response → Bytes
  | .ok sent => packet sent.number sent.payload
  | .err sent => packet sent.number sent.payload
  | .resultSet set => set.bytes

def WellFormed : Response → Prop
  | .ok sent => sent.payload.length < 2 ^ 24 - 1
  | .err sent => sent.sqlState.length = 5 ∧ sent.payload.length < 2 ^ 24 - 1
  | .resultSet set => set.WellFormed

end Response

section

variable {n : Nat} {rest : Bytes}

theorem take_leBytes (k n : Nat) : (leBytes k n ++ rest).take k = leBytes k n :=
  List.take_left' (leBytes_length k n)

theorem drop_leBytes (k n : Nat) : (leBytes k n ++ rest).drop k = rest :=
  List.drop_left' (leBytes_length k n)

theorem mysqlUint2korr_leBytes (small : n < 2 ^ 16) : mysqlUint2korr (leBytes 2 n ++ rest) = n := by
  rw [mysqlUint2korr, take_leBytes, leNat_leBytes (by omega)]

theorem mysqlUint3korr_leBytes (small : n < 2 ^ 24) : mysqlUint3korr (leBytes 3 n ++ rest) = n := by
  rw [mysqlUint3korr, take_leBytes, leNat_leBytes (by omega)]

theorem mysqlUint4korr_leBytes (small : n < 2 ^ 32) : mysqlUint4korr (leBytes 4 n ++ rest) = n := by
  rw [mysqlUint4korr, take_leBytes, leNat_leBytes (by omega)]

theorem mysqlUint8korr_leBytes (small : n < 2 ^ 64) : mysqlUint8korr (leBytes 8 n ++ rest) = n := by
  rw [mysqlUint8korr, take_leBytes, leNat_leBytes (by omega)]

theorem lenenc_pos (n : Nat) : 0 < (lenenc n).length := by
  unfold lenenc
  split_ifs <;> simp

theorem mysqlLcbLl_lenenc (small : n < 2 ^ 64) (more : 2 ^ 16 ≤ n → n < 2 ^ 24 → rest ≠ []) :
    mysqlLcbLl (lenenc n ++ rest) = some (n, false, (lenenc n).length) := by
  unfold lenenc
  split_ifs with one two three
  · have value : (UInt8.ofNat n).toNat = n := by
      rw [UInt8.toNat_ofNat']
      omega
    have other : ∀ byte : UInt8, 250 < byte.toNat → UInt8.ofNat n ≠ byte := by
      intro byte large same
      rw [← same, value] at large
      omega
    rw [List.singleton_append, mysqlLcbLl, if_neg (other 251 (by decide)),
      if_neg (other 252 (by decide)), if_neg (other 253 (by decide)),
      if_neg (other 254 (by decide)), value]
    rfl
  · rw [List.cons_append, mysqlLcbLl, if_neg (by decide), if_pos rfl, if_neg,
      mysqlUint2korr_leBytes two, List.length_cons, leBytes_length]
    rw [length_append, leBytes_length]
    omega
  · have left := List.length_pos_iff.2 (more (by omega) three)
    rw [List.cons_append, mysqlLcbLl, if_neg (by decide), if_neg (by decide), if_pos rfl, if_neg,
      mysqlUint3korr_leBytes three, List.length_cons, leBytes_length]
    rw [length_append, leBytes_length]
    omega
  · rw [List.cons_append, mysqlLcbLl, if_neg (by decide), if_neg (by decide), if_neg (by decide),
      if_pos rfl, if_neg, mysqlUint8korr_leBytes small, List.length_cons, leBytes_length]
    rw [length_append, leBytes_length]
    omega

theorem decodeString_lenencString {s : Bytes} (small : s.length < 2 ^ 64) :
    decodeString (lenencString s ++ rest) = some (s, rest) := by
  have read : mysqlLcbLl (lenenc s.length ++ (s ++ rest)) =
      some (s.length, false, (lenenc s.length).length) := by
    refine mysqlLcbLl_lenenc small fun large _ none => ?_
    rw [(List.append_eq_nil_iff.1 none).1] at large
    exact absurd large (by decide)
  rw [lenencString, List.append_assoc, decodeString, read]
  simp only
  rw [drop_left, if_neg (by rw [length_append]; omega), List.take_left, drop_left]

end

namespace ColumnDef

variable {col : ColumnDef}

theorem fixed_eq (col : ColumnDef) :
    col.fixed = 12 :: (leBytes 2 col.charsetnr.toNat ++ (leBytes 4 col.length.toNat ++
      (col.type :: (leBytes 2 col.flags.toNat ++ [col.decimals, 0, 0])))) := by
  simp [fixed]

theorem length_fixed (col : ColumnDef) : col.fixed.length = 13 := by
  simp [fixed_eq, leBytes_length]

theorem strings_lt (fits : col.payload.length < 2 ^ 24 - 1) :
    col.catalog.length < 2 ^ 64 ∧ col.db.length < 2 ^ 64 ∧ col.table.length < 2 ^ 64 ∧
      col.orgTable.length < 2 ^ 64 ∧ col.name.length < 2 ^ 64 ∧ col.orgName.length < 2 ^ 64 := by
  simp only [payload, lenencString, length_append] at fits
  omega

theorem fixed_decoded (col : ColumnDef) : mysqlUint2korr (col.fixed.drop 1) = col.charsetnr.toNat ∧
      mysqlUint4korr (col.fixed.drop 3) = col.length.toNat ∧ col.fixed.getD 7 0 = col.type ∧
      mysqlUint2korr (col.fixed.drop 8) = col.flags.toNat ∧ col.fixed.getD 10 0 = col.decimals := by
  have charset : mysqlUint2korr (col.fixed.drop 1) = col.charsetnr.toNat := by
    rw [fixed_eq, drop_succ_cons, List.drop_zero,
      mysqlUint2korr_leBytes col.charsetnr.toNat_lt]
  have length : mysqlUint4korr (col.fixed.drop 3) = col.length.toNat := by
    rw [fixed_eq, drop_succ_cons, drop_leBytes, mysqlUint4korr_leBytes col.length.toNat_lt]
  have typeOn : col.fixed.drop 7 =
      col.type :: (leBytes 2 col.flags.toNat ++ [col.decimals, 0, 0]) := by
    rw [fixed_eq, drop_succ_cons, show (6 : Nat) = 2 + 4 from rfl, ← List.drop_drop,
      drop_leBytes, drop_leBytes]
  have flagsOn : col.fixed.drop 8 = leBytes 2 col.flags.toNat ++ [col.decimals, 0, 0] := by
    rw [show (8 : Nat) = 7 + 1 from rfl, ← List.drop_drop, typeOn, drop_succ_cons,
      List.drop_zero]
  have decimalsOn : col.fixed.drop 10 = [col.decimals, 0, 0] := by
    rw [show (10 : Nat) = 8 + 2 from rfl, ← List.drop_drop, flagsOn, drop_leBytes]
  have head : ∀ k : Nat, ∀ byte : UInt8, ∀ tail, col.fixed.drop k = byte :: tail →
      col.fixed.getD k 0 = byte := by
    intro k byte tail shape
    rw [List.getD_eq_getElem?_getD, ← List.head?_drop, shape]
    rfl
  refine ⟨charset, length, head 7 _ _ typeOn, ?_, head 10 _ _ decimalsOn⟩
  rw [flagsOn, mysqlUint2korr_leBytes col.flags.toNat_lt]

theorem mysqlDecodeField_payload (fits : col.payload.length < 2 ^ 24 - 1) :
    mysqlDecodeField col.payload = some col.field := by
  obtain ⟨catalog, db, table, orgTable, name, orgName⟩ := strings_lt fits
  obtain ⟨charsetnr, length, type, flags, decimals⟩ := fixed_decoded col
  have noDefault : (col.fixed.drop 13).length = 0 := by
    rw [List.length_drop, length_fixed]
  simp only [mysqlDecodeField, payload, decodeString_lenencString, catalog, db, table, orgTable,
    name, orgName, Option.bind_eq_bind, Option.bind_some]
  rw [if_neg (by rw [length_fixed]; omega), if_pos noDefault, charsetnr, length, type, flags,
    decimals]
  rfl

end ColumnDef

namespace RowData

variable {w : WordSize}

theorem decodeRowLoop_values {columns : List ColumnDef} {values : List (Option Bytes)} {row : Row}
    (width : values.length = columns.length) (fits : (values.flatMap value).length < 2 ^ 24 - 1) :
    decodeRowLoop w (columns.map ColumnDef.field) (values.flatMap value) row =
      some ((columns.zip values).foldl (store w) row) := by
  induction columns generalizing values row with
  | nil =>
    rw [List.length_nil, List.length_eq_zero_iff] at width
    subst width
    rfl
  | cons col columns ih =>
    obtain _ | ⟨first, values⟩ := values
    · exact absurd width (by simp)
    have width' : values.length = columns.length := by simpa using width
    rw [List.flatMap_cons, length_append] at fits
    rw [List.flatMap_cons, List.map_cons, List.zip_cons_cons, List.foldl_cons]
    cases first with
    | none =>
      rw [value, List.singleton_append, decodeRowLoop, mysqlLcbLl, if_pos rfl]
      simp only [drop_succ_cons, List.drop_zero, Nat.not_lt_zero, if_false, if_true]
      exact ih width' (by omega)
    | some s =>
      rw [value, lenencString, length_append] at fits
      have read : mysqlLcbLl (lenenc s.length ++ (s ++ values.flatMap value)) =
          some (s.length, false, (lenenc s.length).length) := by
        refine mysqlLcbLl_lenenc (by omega) fun large _ none => ?_
        rw [(List.append_eq_nil_iff.1 none).1] at large
        exact absurd large (by decide)
      rw [value, lenencString, List.append_assoc, decodeRowLoop, read]
      simp only
      rw [drop_left, if_neg (by rw [length_append]; omega), List.take_left,
        drop_left, if_neg Bool.false_ne_true, ih width' (by omega)]
      rfl

theorem mysqlDecodeRow_payload {columns : List ColumnDef} {row : RowData}
    {response : MysqlResponse} (known : response.columns = columns.map ColumnDef.field)
    (width : row.values.length = columns.length) (fits : row.payload.length < 2 ^ 24 - 1) :
    mysqlDecodeRow w response row.payload = some (row.entry w columns) := by
  rw [mysqlDecodeRow, known]
  exact decodeRowLoop_values width fits

theorem payload_ne_eof {row : RowData} (some_values : row.values ≠ [])
    (fits : row.payload.length < 2 ^ 24 - 1) :
    ∃ byte rest, row.payload = byte :: rest ∧ byte ≠ 254 := by
  obtain ⟨first, values, shape⟩ := List.exists_cons_of_ne_nil some_values
  rw [payload, shape, List.flatMap_cons] at fits ⊢
  cases first with
  | none => exact ⟨251, values.flatMap value, rfl, by decide⟩
  | some s =>
    rw [value, lenencString, length_append, length_append] at fits
    rw [value, lenencString, lenenc]
    split_ifs with one two three
    · refine ⟨_, _, rfl, fun same => ?_⟩
      have := congrArg UInt8.toNat same
      rw [UInt8.toNat_ofNat'] at this
      simp at this
      omega
    · exact ⟨252, _, rfl, by decide⟩
    · exact ⟨253, _, rfl, by decide⟩
    · omega

end RowData

end PhpExts.Swoole.Mysql
