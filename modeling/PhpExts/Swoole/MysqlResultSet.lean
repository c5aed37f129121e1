import PhpExts.Swoole.MysqlWire

/-!
# Reading a result set

A client that waits has taken whole packets from its buffer, and knows by its state and its
indices which ones. A call takes the packets that have been received since: `caseReadRow_spec` and
`caseReadField_spec` say that afterwards the client waits again if some bytes are missing, and has
the columns and the rows that were sent otherwise.
-/

namespace PhpExts.Swoole.Mysql

open PhpExts.Zend
open Serialize (leNat leBytes leNat_leBytes leBytes_length)
open List (append_assoc append_nil drop_drop length_append length_drop)

/-! ## A position in a stream -/

/-- `str` is what has been received of `whole`, and behind `offset` the bytes `left` follow. -/
structure At (whole str : Bytes) (offset : Nat) (left : Bytes) : Prop where
  sent : str <+: whole
  taken : offset ≤ str.length
  left_eq : whole.drop offset = left

namespace At

variable {whole str first left chunk : Bytes} {offset : Nat}

theorem start (sent : str <+: whole) : At whole str 0 whole :=
  ⟨sent, Nat.zero_le _, rfl⟩

theorem drop_prefix (on : At whole str offset left) : str.drop offset <+: left := by
  obtain ⟨more, rfl⟩ := on.sent
  rw [← on.left_eq, List.drop_append_of_le_length on.taken]
  exact List.prefix_append _ _

theorem length_left (on : At whole str offset left) : left.length + offset = whole.length := by
  have := on.sent.length_le
  have := on.taken
  rw [← on.left_eq, length_drop]
  omega

theorem lt_of_lt (on : At whole str offset left) (short : str.length - offset < left.length) :
    str.length < whole.length := by
  have := on.length_left
  have := on.taken
  omega

theorem eq_of_le (on : At whole str offset left) (long : left.length ≤ str.length - offset) :
    str = whole := by
  have := on.length_left
  have := on.taken
  exact on.sent.eq_of_length_le (by omega)

theorem drop_eq (on : At whole str offset (first ++ left))
    (long : first.length ≤ str.length - offset) :
    str.drop offset = first ++ str.drop (offset + first.length) := by
  obtain ⟨more, shape⟩ : first <+: str.drop offset :=
    List.prefix_of_prefix_length_le (List.prefix_append first left) on.drop_prefix
      (by rw [length_drop]; exact long)
  rw [← drop_drop, ← shape, List.drop_left]

theorem advance (on : At whole str offset (first ++ left))
    (long : first.length ≤ str.length - offset) : At whole str (offset + first.length) left := by
  refine ⟨on.sent, ?_, ?_⟩
  · have := on.taken
    omega
  · rw [← drop_drop, on.left_eq, List.drop_left]

theorem more (on : At whole str offset left) (sent : str ++ chunk <+: whole) :
    At whole (str ++ chunk) offset left :=
  ⟨sent, Nat.le_trans on.taken (by simp), on.left_eq⟩

end At

section

variable {number : UInt8} {payload tail part : Bytes}

theorem length_packet (number : UInt8) (payload : Bytes) :
    (packet number payload).length = payload.length + 4 := by
  simp [packet, leBytes_length]
  omega

theorem drop_packet (number : UInt8) (payload : Bytes) :
    (packet number payload ++ tail).drop 4 = payload ++ tail := by
  rw [packet, append_assoc, show (4 : Nat) = 3 + 1 from rfl, ← drop_drop,
    Serialize.leBytes_length 3 payload.length |> List.drop_left', List.cons_append,
    List.drop_succ_cons, List.drop_zero]

theorem header_of_prefix (fits : payload.length < 2 ^ 24)
    (on : part <+: packet number payload ++ tail) (four : 4 ≤ part.length) :
    mysqlUint3korr part = payload.length ∧ part.getD 3 0 = number := by
  obtain ⟨more, shape⟩ := on
  have three : part.take 3 = leBytes 3 payload.length := by
    have front : (part ++ more).take 3 = part.take 3 :=
      List.take_append_of_le_length (by omega)
    rw [← front, shape, packet, append_assoc, take_leBytes]
  have fourth : part[3]? = some number := by
    have front : (part ++ more)[3]? = part[3]? := List.getElem?_append_left (by omega)
    rw [← front, shape, packet, append_assoc,
      List.getElem?_append_right (Nat.le_of_eq (leBytes_length 3 _)), leBytes_length]
    rfl
  constructor
  · rw [mysqlUint3korr, three, leNat_leBytes (by omega)]
  · rw [List.getD_eq_getElem?_getD, fourth]
    rfl

theorem first_of_prefix {byte : UInt8} {rest : Bytes} (shape : payload = byte :: rest)
    (on : part <+: packet number payload ++ tail) (five : 5 ≤ part.length) :
    part.getD 4 0 = byte := by
  obtain ⟨more, whole⟩ := on
  have fifth : part[4]? = some byte := by
    have front : (part ++ more)[4]? = part[4]? := List.getElem?_append_left (by omega)
    rw [← front, whole, packet, append_assoc,
      List.getElem?_append_right (by rw [leBytes_length]; decide), leBytes_length, shape]
    rfl
  rw [List.getD_eq_getElem?_getD, fifth]
  rfl

end

theorem toInt_of_lt {n : Nat} (small : n < 2 ^ 31) : toInt n = n := by
  rw [toInt, Nat.mod_eq_of_lt (by omega), if_pos small]

theorem MysqlClient.byte_add (client : MysqlClient) (p k : Nat) :
    client.byte (p + k) = (client.bytesAt p).getD k 0 := by
  rw [byte, bytesAt, List.getD_eq_getElem?_getD, List.getD_eq_getElem?_getD, List.getElem?_drop]

theorem MysqlClient.bytesAt_add (client : MysqlClient) (p k : Nat) :
    client.bytesAt (p + k) = (client.bytesAt p).drop k := by
  rw [bytesAt, bytesAt, drop_drop]

/-! ## Positions of a client -/

section

variable {whole left : Bytes} {p : Nat} {number : UInt8} {payload : Bytes}

theorem withHeader_eq (client : MysqlClient) (fits : payload.length < 2 ^ 24)
    (on : At whole client.str p (packet number payload ++ left))
    (four : 4 ≤ client.str.length - p) :
    client.withHeader p = { client with response := { client.response with
      packetLength := payload.length, packetNumber := number } } := by
  have read := header_of_prefix fits on.drop_prefix (by rw [length_drop]; exact four)
  rw [MysqlClient.withHeader, MysqlClient.byte_add, MysqlClient.bytesAt, read.1, read.2]

theorem bytesAt_payload (client : MysqlClient)
    (on : At whole client.str p (packet number payload ++ left))
    (long : payload.length + 4 ≤ client.str.length - p) :
    client.bytesAt (p + 4) = payload ++ client.bytesAt (p + (payload.length + 4)) := by
  have shape := on.drop_eq (by rw [length_packet]; exact long)
  rw [length_packet] at shape
  rw [MysqlClient.bytesAt_add, MysqlClient.bytesAt, shape, drop_packet]
  rfl

theorem mysqlReadEof_eq (client : MysqlClient) {eof : EofPacket}
    (on : At whole client.str p (eof.bytes ++ left)) (nine : 9 ≤ client.str.length - p)
    (short : whole.length < 2 ^ 31) :
    mysqlReadEof client p (toInt (client.str.length - p)) =
      ({ client with response := { client.response with
          packetLength := 5, packetNumber := eof.number,
          warnings := eof.warnings.toNat, statusCode := eof.status.toNat } }, .ok) := by
  have length : eof.payload.length = 5 := by simp [EofPacket.payload, leBytes_length]
  have size := on.sent.length_le
  have header := withHeader_eq client (by rw [length]; decide) on (by omega)
  have payload := bytesAt_payload client on (by rw [length]; exact nine)
  rw [EofPacket.payload, append_assoc, List.cons_append] at payload
  have first : client.byte (p + 4) = 254 := by
    rw [show client.byte (p + 4) = client.byte (p + 4 + 0) from rfl, MysqlClient.byte_add, payload]
    rfl
  have warnings : mysqlUint2korr (client.bytesAt (p + 5)) = eof.warnings.toNat := by
    rw [show p + 5 = p + 4 + 1 from rfl, MysqlClient.bytesAt_add, payload, List.drop_succ_cons,
      List.drop_zero, mysqlUint2korr_leBytes eof.warnings.toNat_lt]
  have status : mysqlUint2korr (client.bytesAt (p + 7)) = eof.status.toNat := by
    rw [show p + 7 = p + 4 + 1 + 2 from rfl, MysqlClient.bytesAt_add, MysqlClient.bytesAt_add,
      payload, List.drop_succ_cons, List.drop_zero, drop_leBytes,
      mysqlUint2korr_leBytes eof.status.toNat_lt]
  rw [mysqlReadEof, toInt_of_lt (by omega), if_neg (by omega), header]
  simp only [length]
  rw [if_neg]
  · rw [show (MysqlClient.bytesAt { client with response := { client.response with
        packetLength := 5, packetNumber := eof.number } } (p + 5)) = client.bytesAt (p + 5)
        from rfl,
      show (MysqlClient.bytesAt { client with response := { client.response with
        packetLength := 5, packetNumber := eof.number } } (p + 7)) = client.bytesAt (p + 7)
        from rfl, warnings, status]
  · exact fun other => other first

end

/-- What a call with the received bytes `str` comes to: the client waits exactly if some bytes of
`whole` are missing. -/
inductive Call (whole : Bytes) (waits : MysqlClient → Prop) (complete : MysqlResponse → Prop)
    (str : Bytes) : MysqlClient × Ret → Prop where
  | more {client : MysqlClient} (waiting : waits client) (same : client.str = str)
      (short : str.length < whole.length) : Call whole waits complete str (client, .err)
  | done {client : MysqlClient} (all : str = whole) (is_complete : complete client.response) :
      Call whole waits complete str (client, .ok)

/-! ## The response while it is read -/

def startResponse (wait : Bool) (type : UInt8) (length : Nat) (number : UInt8) : MysqlResponse :=
  { MysqlResponse.zero with
    waitRecv := wait, responseType := type, packetLength := length, packetNumber := number }

namespace ResultSet

variable (w : WordSize) (set : ResultSet)

/-- The byte by which the first packet is told to be the header of a result set. -/
def type : UInt8 := (lenenc set.columns.length).headD 0

/-- The response when the columns `pre` have been read and `post` are missing. -/
def fieldsResponse (pre post : List ColumnDef) (wait : Bool) (length : Nat) (number : UInt8) :
    MysqlResponse :=
  { startResponse wait set.type length number with
    columns := pre.map ColumnDef.field ++ List.replicate post.length .zero
    numColumn := set.columns.length
    indexColumn := pre.length }

/-- The response when all columns and the rows `pre` have been read. -/
def rowsResponse (pre : List RowData) (eof : EofPacket) (wait : Bool) (length : Nat)
    (number : UInt8) : MysqlResponse :=
  { startResponse wait set.type length number with
    columns := set.columns.map ColumnDef.field
    numColumn := set.columns.length
    indexColumn := set.columns.length
    numRow := pre.length % 2 ^ 32
    warnings := eof.warnings.toNat
    statusCode := eof.status.toNat
    resultArray := some (pre.map (RowData.entry w set.columns)) }

inductive Waiting : MysqlClient → Prop where
  | start {str : Bytes} {wait : Bool} {type : UInt8} {length : Nat} {number : UInt8}
      (sent : str <+: set.bytes) :
      Waiting ⟨.readStart, str, 0, startResponse wait type length number⟩
  | fields {pre post : List ColumnDef} {str : Bytes} {offset : Nat} {wait : Bool} {length : Nat}
      {number : UInt8} (split : pre ++ post = set.columns)
      (on : At set.bytes str offset (post.flatMap ColumnDef.bytes ++ set.afterColumns)) :
      Waiting ⟨.readField, str, offset, set.fieldsResponse pre post wait length number⟩
  | rows {pre post : List RowData} {str : Bytes} {offset : Nat} {wait : Bool} {length : Nat}
      {number : UInt8} (split : pre ++ post = set.rows)
      (on : At set.bytes str offset (post.flatMap RowData.bytes ++ set.rowsEnd.bytes)) :
      Waiting ⟨.readRow, str, offset, set.rowsResponse w pre set.columnsEnd wait length number⟩

/-- The answer when the response is complete. -/
def Complete (response : MysqlResponse) : Prop :=
  ∃ wait, response = set.rowsResponse w set.rows set.rowsEnd wait 5 set.rowsEnd.number

/-- What a call with the received bytes `str` comes to. -/
abbrev Outcome (str : Bytes) : MysqlClient × Ret → Prop :=
  Call set.bytes (set.Waiting w) (set.Complete w) str

variable {w : WordSize} {set : ResultSet} {str : Bytes} {offset : Nat} {wait : Bool} {length : Nat}
  {number : UInt8}

/-! ### Rows -/

theorem length_eof (eof : EofPacket) : eof.bytes.length = 9 := by
  simp [EofPacket.bytes, length_packet, EofPacket.payload, leBytes_length]

theorem readRowsLoop_row {pre : List RowData} {row : RowData} {left : Bytes} {fuel : Nat}
    (wf : set.WellFormed) (short : set.bytes.length < 2 ^ 31) (known : row ∈ set.rows)
    (on : At set.bytes str offset (row.bytes ++ left)) (four : 4 ≤ str.length - offset) :
    readRowsLoop w (fuel + 1)
        ⟨.readRow, str, offset, set.rowsResponse w pre set.columnsEnd wait length number⟩ =
      if str.length - offset - 4 < row.payload.length then (⟨.readRow, str, offset,
          set.rowsResponse w pre set.columnsEnd true row.payload.length row.number⟩, .err) else
        readRowsLoop w fuel
          ⟨.readRow, str, offset + (row.payload.length + 4), set.rowsResponse w (pre ++ [row])
            set.columnsEnd wait row.payload.length row.number⟩ := by
  have size := on.sent.length_le
  have fits := wf.row_lt row known
  have width := wf.row_width row known
  generalize client_eq : (⟨.readRow, str, offset,
    set.rowsResponse w pre set.columnsEnd wait length number⟩ : MysqlClient) = client
  have str_eq : client.str = str := by rw [← client_eq]
  have offset_eq : client.offset = offset := by rw [← client_eq]
  have on' : At set.bytes client.str offset (packet row.number row.payload ++ left) := by
    rw [str_eq]
    exact on
  have header : client.withHeader offset = ⟨.readRow, str, offset,
      set.rowsResponse w pre set.columnsEnd wait row.payload.length row.number⟩ := by
    rw [withHeader_eq client (by omega) on' (by rw [str_eq]; exact four), ← client_eq]
    rfl
  -- the test for the end of the rows looks at the first byte of the row
  obtain ⟨tested, test, tested_header, tested_offset⟩ : ∃ tested,
      (if str.length - offset = 9 then mysqlReadEof client offset (str.length - offset : Nat)
        else (client, .err)) = (tested, Ret.err) ∧
      tested.withHeader offset = client.withHeader offset ∧ tested.offset = offset := by
    by_cases nine : str.length - offset = 9
    · obtain ⟨byte, rest, shape, other⟩ :=
        RowData.payload_ne_eof (by
          rw [← List.length_pos_iff, width]
          exact List.length_pos_iff.2 wf.some_columns) fits
      have first : (client.withHeader offset).byte (offset + 4) = byte := by
        rw [MysqlClient.byte_add]
        refine first_of_prefix shape on'.drop_prefix ?_
        rw [header, MysqlClient.bytesAt, length_drop, nine]
        decide
      refine ⟨client.withHeader offset, ?_, rfl, offset_eq⟩
      rw [if_pos nine, nine, mysqlReadEof, if_neg (by decide)]
      simp only
      rw [if_pos (by rw [first]; exact other)]
    · exact ⟨client, if_neg nine, rfl, offset_eq⟩
  rw [readRowsLoop]
  simp only [str_eq, offset_eq]
  rw [Nat.mod_eq_of_lt (by omega), if_neg (by omega), if_neg (by omega), test]
  simp only [tested_offset, tested_header, header]
  rw [show (set.rowsResponse w pre set.columnsEnd wait row.payload.length row.number).packetLength =
    row.payload.length from rfl]
  by_cases missing : str.length - offset - 4 < row.payload.length
  · rw [if_pos missing, if_pos missing]
    rfl
  · have payload : (MysqlClient.bytesAt ⟨.readRow, str, offset,
        set.rowsResponse w pre set.columnsEnd wait row.payload.length row.number⟩
          (offset + 4)).take row.payload.length = row.payload := by
      rw [bytesAt_payload _ on (by simp only; omega), List.take_left]
    rw [if_neg missing, if_neg missing, payload,
      RowData.mysqlDecodeRow_payload rfl width fits]
    simp only [rowsResponse, startResponse, MysqlResponse.zero, Option.getD_some,
      length_append, List.length_singleton, List.map_append, List.map_cons, List.map_nil,
      Nat.mod_add_mod]

theorem readRowsLoop_few (w : WordSize) (set : ResultSet) (pre : List RowData) (eof : EofPacket)
    (fuel : Nat) (wait : Bool) (length : Nat) (number : UInt8) (few : str.length - offset < 4) :
    ∃ wait', readRowsLoop w fuel ⟨.readRow, str, offset,
        set.rowsResponse w pre eof wait length number⟩ =
      (⟨.readRow, str, offset, set.rowsResponse w pre eof wait' length number⟩, .err) := by
  cases fuel with
  | zero => exact ⟨wait, rfl⟩
  | succ fuel =>
    rw [readRowsLoop]
    simp only
    rw [Nat.mod_eq_of_lt (by omega)]
    by_cases none : str.length - offset = 0
    · exact ⟨wait, if_pos none⟩
    · exact ⟨true, by rw [if_neg none, if_pos few]; rfl⟩

theorem readRowsLoop_end {fuel : Nat} (short : set.bytes.length < 2 ^ 31)
    (on : At set.bytes str offset set.rowsEnd.bytes) (four : 4 ≤ str.length - offset) :
    set.Outcome w str (readRowsLoop w (fuel + 1)
      ⟨.readRow, str, offset, set.rowsResponse w set.rows set.columnsEnd wait length number⟩) := by
  have size := on.sent.length_le
  have onEnd : At set.bytes str offset (set.rowsEnd.bytes ++ []) := by
    rw [append_nil]
    exact on
  rw [readRowsLoop]
  simp only
  rw [Nat.mod_eq_of_lt (by omega), if_neg (by omega), if_neg (by omega)]
  by_cases nine : str.length - offset = 9
  · have read := mysqlReadEof_eq ⟨.readRow, str, offset,
      set.rowsResponse w set.rows set.columnsEnd wait length number⟩ onEnd
      (Nat.le_of_eq nine.symm) short
    rw [toInt_of_lt (by simp only; omega)] at read
    rw [if_pos nine, read]
    exact .done (on.eq_of_le (by rw [length_eof]; omega)) ⟨wait, rfl⟩
  · have few : str.length - offset < 9 := by
      have := on.drop_prefix.length_le
      rw [length_drop, length_eof] at this
      omega
    have length_payload : set.rowsEnd.payload.length = 5 := by
      simp [EofPacket.payload, leBytes_length]
    have header := withHeader_eq ⟨.readRow, str, offset,
      set.rowsResponse w set.rows set.columnsEnd wait length number⟩
      (by rw [length_payload]; decide) onEnd four
    rw [if_neg nine]
    simp only [header, length_payload]
    rw [if_pos (by omega)]
    have waits : set.Waiting w ⟨.readRow, str, offset,
      set.rowsResponse w set.rows set.columnsEnd true 5 set.rowsEnd.number⟩ :=
        .rows (append_nil _) on
    exact .more waits rfl (on.lt_of_lt (by rw [length_eof]; exact few))

theorem readRowsLoop_spec {pre post : List RowData} {fuel : Nat} (wf : set.WellFormed)
    (short : set.bytes.length < 2 ^ 31) (split : pre ++ post = set.rows)
    (on : At set.bytes str offset (post.flatMap RowData.bytes ++ set.rowsEnd.bytes))
    (enough : str.length - offset ≤ fuel) : set.Outcome w str (readRowsLoop w fuel
      ⟨.readRow, str, offset, set.rowsResponse w pre set.columnsEnd wait length number⟩) := by
  induction post generalizing pre offset fuel wait length number with
  | nil =>
    rw [append_nil] at split
    subst split
    by_cases few : str.length - offset < 4
    · obtain ⟨wait', stops⟩ := readRowsLoop_few w set set.rows set.columnsEnd fuel wait length
        number few
      rw [stops]
      exact .more (.rows (append_nil _) on) rfl
        (on.lt_of_lt (by rw [List.flatMap_nil, List.nil_append, length_eof]; omega))
    · obtain ⟨fuel, rfl⟩ := Nat.exists_eq_add_of_lt (show 0 < fuel by omega)
      rw [Nat.zero_add]
      exact readRowsLoop_end short on (by omega)
  | cons row post ih =>
    rw [List.flatMap_cons, append_assoc] at on
    have known : row ∈ set.rows := by
      rw [← split]
      exact List.mem_append_right _ (.head _)
    have size : row.bytes.length = row.payload.length + 4 := length_packet _ _
    have on' : At set.bytes str offset ((row :: post).flatMap RowData.bytes ++
        set.rowsEnd.bytes) := by
      rw [List.flatMap_cons, append_assoc]
      exact on
    by_cases few : str.length - offset < 4
    · obtain ⟨wait', stops⟩ := readRowsLoop_few w set pre set.columnsEnd fuel wait length
        number few
      rw [stops]
      exact .more (.rows split on') rfl
        (on.lt_of_lt (by rw [length_append, size]; omega))
    · obtain ⟨fuel, rfl⟩ := Nat.exists_eq_add_of_lt (show 0 < fuel by omega)
      rw [Nat.zero_add, readRowsLoop_row wf short known on (by omega)]
      by_cases missing : str.length - offset - 4 < row.payload.length
      · rw [if_pos missing]
        exact .more (.rows split on') rfl
          (on.lt_of_lt (by rw [length_append, size]; omega))
      · have next := on.advance (by rw [size]; omega)
        rw [size] at next
        rw [if_neg missing]
        exact ih (by rw [append_assoc]; exact split) next (by omega)

theorem caseReadRow_spec {pre post : List RowData} (wf : set.WellFormed)
    (short : set.bytes.length < 2 ^ 31) (split : pre ++ post = set.rows)
    (on : At set.bytes str offset (post.flatMap RowData.bytes ++ set.rowsEnd.bytes)) :
    set.Outcome w str (caseReadRow w
      ⟨.readRow, str, offset, set.rowsResponse w pre set.columnsEnd wait length number⟩) := by
  have outcome : set.Outcome w str (readRowsLoop w (str.length - offset)
      ⟨.readRow, str, offset, set.rowsResponse w pre set.columnsEnd wait length number⟩) :=
    readRowsLoop_spec wf short split on (Nat.le_refl _)
  rw [caseReadRow, mysqlReadRows]
  generalize readRowsLoop w _ _ = result at outcome
  cases outcome with
  | more waiting same missing => exact .more waiting same missing
  | done all complete => exact .done all complete

/-! ### Columns -/

inductive Columns (set : ResultSet) (w : WordSize) (str : Bytes) :
    Except MysqlClient (MysqlClient × Nat) → Prop where
  | more {client : MysqlClient} (waiting : set.Waiting w client) (same : client.str = str)
      (short : str.length < set.bytes.length) : Columns set w str (.error client)
  | done {offset : Nat} {wait : Bool} {length : Nat} {number : UInt8}
      (on : At set.bytes str offset set.afterColumns) : Columns set w str
        (.ok (⟨.readField, str, offset,
          set.fieldsResponse set.columns [] wait length number⟩, offset))

theorem readColumnsLoop_spec {pre post : List ColumnDef} (wf : set.WellFormed)
    (short : set.bytes.length < 2 ^ 31) (split : pre ++ post = set.columns)
    (on : At set.bytes str offset (post.flatMap ColumnDef.bytes ++ set.afterColumns)) :
    Columns set w str (readColumnsLoop post.length
      ⟨.readField, str, offset, set.fieldsResponse pre post wait length number⟩) := by
  have bound := on.sent.length_le
  induction post generalizing pre offset wait length number with
  | nil =>
    rw [append_nil] at split
    subst split
    exact .done on
  | cons col post ih =>
    have on' := on
    rw [List.flatMap_cons, append_assoc] at on
    have fits := wf.column_lt col (by
      rw [← split]
      exact List.mem_append_right _ (.head _))
    have size : col.bytes.length = col.payload.length + 4 := length_packet _ _
    have missing : str.length - offset < col.payload.length + 4 →
        str.length < set.bytes.length := fun few =>
      on.lt_of_lt (by rw [length_append, size]; omega)
    rw [List.length_cons, readColumnsLoop]
    simp only
    rw [Nat.mod_eq_of_lt (by omega)]
    by_cases few : str.length - offset < 4
    · rw [if_pos few]
      exact .more (.fields split on') rfl (missing (by omega))
    · have read := header_of_prefix (by omega) on.drop_prefix
        (by rw [length_drop]; omega)
      rw [if_neg few, MysqlClient.bytesAt, read.1]
      by_cases part : str.length - offset - 4 < col.payload.length
      · rw [if_pos part]
        exact .more (.fields split on') rfl (missing (by omega))
      · have header : MysqlClient.withHeader ⟨.readField, str, offset,
            set.fieldsResponse pre (col :: post) wait length number⟩ offset =
              ⟨.readField, str, offset,
                set.fieldsResponse pre (col :: post) wait col.payload.length col.number⟩ :=
          withHeader_eq _ (by omega) on (by simp only; omega)
        have payload : (MysqlClient.bytesAt ⟨.readField, str, offset,
            set.fieldsResponse pre (col :: post) wait col.payload.length col.number⟩
              (offset + 4)).take col.payload.length = col.payload := by
          rw [bytesAt_payload _ on (by simp only; omega), List.take_left]
        have written : (pre.map ColumnDef.field ++
            List.replicate (post.length + 1) MysqlField.zero).set pre.length col.field =
              (pre ++ [col]).map ColumnDef.field ++ List.replicate post.length .zero := by
          rw [List.set_append_right _ _ (by simp), List.length_map, Nat.sub_self,
            List.replicate_succ, List.set_cons_zero]
          simp
        have next := on.advance (by rw [size]; omega)
        rw [size] at next
        have rest : Columns set w str (readColumnsLoop post.length
            ⟨.readField, str, offset + (col.payload.length + 4), set.fieldsResponse
              (pre ++ [col]) post wait col.payload.length col.number⟩) :=
          ih (by rw [append_assoc]; exact split) next
        rw [fieldsResponse, ← written, length_append] at rest
        rw [if_neg part, header]
        simp only
        rw [payload, ColumnDef.mysqlDecodeField_payload fits]
        exact rest

theorem caseReadField_spec {pre post : List ColumnDef} {nBuf : Int} (wf : set.WellFormed)
    (short : set.bytes.length < 2 ^ 31) (split : pre ++ post = set.columns) (left : 0 < nBuf)
    (on : At set.bytes str offset (post.flatMap ColumnDef.bytes ++ set.afterColumns)) :
    set.Outcome w str (caseReadField w nBuf
      ⟨.readField, str, offset, set.fieldsResponse pre post wait length number⟩) := by
  have read : Columns set w str (readColumnsLoop post.length
      ⟨.readField, str, offset, set.fieldsResponse pre post wait length number⟩) :=
    readColumnsLoop_spec wf short split on
  have missing : (set.fieldsResponse pre post wait length number).numColumn -
      (set.fieldsResponse pre post wait length number).indexColumn = post.length := by
    rw [show (set.fieldsResponse pre post wait length number).numColumn =
        set.columns.length from rfl,
      show (set.fieldsResponse pre post wait length number).indexColumn = pre.length from rfl,
      ← split, length_append]
    omega
  rw [caseReadField, mysqlReadColumns, missing]
  generalize readColumnsLoop post.length _ = result at read
  cases read with
  | more waiting same few => exact .more waiting same few
  | @done offset wait length number on =>
    simp only
    by_cases nine : 9 ≤ str.length - offset
    · rw [mysqlReadEof_eq _ on nine short]
      simp only
      rw [if_pos left]
      have next : At set.bytes str (offset + set.columnsEnd.bytes.length)
          (set.rows.flatMap RowData.bytes ++ set.rowsEnd.bytes) :=
        on.advance (by rw [length_eof]; exact nine)
      rw [length_eof] at next
      have rows : set.Outcome w str (caseReadRow w ⟨.readRow, str, offset + 9,
          set.rowsResponse w [] set.columnsEnd wait 5 set.columnsEnd.number⟩) :=
        caseReadRow_spec wf short (List.nil_append _) next
      simpa only [fieldsResponse, rowsResponse, List.length_nil, List.replicate_zero,
        append_nil, Nat.zero_mod, List.map_nil, startResponse, MysqlResponse.zero,
        Option.getD_none] using rows
    · rw [mysqlReadEof, if_pos (by rw [toInt_of_lt (by omega)]; omega)]
      have waits : set.Waiting w ⟨.readField, str, offset,
          set.fieldsResponse set.columns [] true length number⟩ :=
        .fields (append_nil _) on
      refine .more waits rfl (on.lt_of_lt ?_)
      rw [afterColumns, length_append, length_eof]
      omega

end ResultSet

end PhpExts.Swoole.Mysql
