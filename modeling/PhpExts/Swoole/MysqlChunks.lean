import PhpExts.Swoole.MysqlResultSet

/-!
# A response in chunks

However a response is cut, the client reports that it is complete when its last byte has been
received and not before, and with the same answer as for all bytes at once, unless a cut is right
behind the header of a result set with up to 250 columns (`chunked_iff`): there the local number of
bytes left is zero, and the loop ends as if the response had been read.

A header for 2^24 columns or more starts like an EOF packet and is taken for one.
-/

namespace PhpExts.Swoole.Mysql

open PhpExts.Zend
open Serialize (leNat leBytes leNat_leBytes leBytes_length)
open List (append_assoc append_nil flatten_cons length_append)

/-- What has been read: all but that the client had to wait. -/
def answer (client : MysqlClient) : MysqlResponse := { client.response with waitRecv := false }

def Response.Early : Response → Nat → Prop
  | .resultSet set, received =>
    set.columns.length ≤ 250 ∧ received = 5 ∨ 2 ^ 24 ≤ set.columns.length ∧ 13 ≤ received
  | _, _ => False

def EarlyCut (early : Nat → Prop) (chunks : List Bytes) : Prop :=
  ∃ first last, chunks = first ++ last ∧ first ≠ [] ∧ last ≠ [] ∧ early first.flatten.length

/-- Only the call for the last chunk reports that the response is complete, and then what has been
read is what one call for all bytes reads. -/
def Chunked (w : WordSize) (whole : Bytes) (chunks : List Bytes) : Prop :=
  (run w .asked chunks).2 = List.replicate (chunks.length - 1) .err ++ [.ok] ∧
    answer (run w .asked chunks).1 = answer (received w .asked whole).1

/-- The calls for the chunks of `whole`: a client that waits goes on waiting until all bytes have
been received, or until the number of received bytes is such that it reports too early. -/
structure Calls (w : WordSize) (whole : Bytes) (waits : MysqlClient → Prop)
    (complete : MysqlResponse → Prop) (early : Nat → Prop) : Prop where
  asked : waits .asked
  call : ∀ {client : MysqlClient} {chunk : Bytes}, waits client → chunk ≠ [] →
    client.str ++ chunk <+: whole →
    (client.str ++ chunk = whole ∨ ¬ early (client.str ++ chunk).length) →
    Call whole waits complete (client.str ++ chunk) (received w client chunk)
  report : ∀ {client : MysqlClient} {chunk : Bytes}, waits client → chunk ≠ [] →
    client.str ++ chunk <+: whole → early (client.str ++ chunk).length →
    (received w client chunk).2 = .ok
  unique : ∀ {client client' : MysqlClient}, complete client.response →
    complete client'.response → answer client = answer client'

section

variable {w : WordSize} {whole : Bytes} {waits : MysqlClient → Prop}
  {complete : MysqlResponse → Prop} {early : Nat → Prop} {client : MysqlClient} {chunk : Bytes}
  {chunks : List Bytes}

theorem flatten_ne_nil (some_chunk : chunks ≠ []) (some_bytes : [] ∉ chunks) :
    chunks.flatten ≠ [] := by
  obtain ⟨chunk, rest, rfl⟩ := List.exists_cons_of_ne_nil some_chunk
  rw [flatten_cons]
  intro none
  exact some_bytes (by rw [(List.append_eq_nil_iff.1 none).1]; exact .head _)

theorem Calls.next (calls : Calls w whole waits complete early) (waiting : waits client)
    (some_bytes : [] ∉ chunk :: chunks) (some_chunk : chunks ≠ [])
    (all : client.str ++ (chunk :: chunks).flatten = whole)
    (timely : ¬ early (client.str ++ chunk).length) :
    ∃ client', received w client chunk = (client', .err) ∧ waits client' ∧
      client'.str = client.str ++ chunk := by
  rw [List.mem_cons, not_or] at some_bytes
  have more := List.length_pos_iff.2 (flatten_ne_nil some_chunk some_bytes.2)
  have sent : client.str ++ chunk <+: whole :=
    ⟨chunks.flatten, by rw [← all, flatten_cons, append_assoc]⟩
  have called := calls.call waiting (fun none => some_bytes.1 none.symm) sent (.inr timely)
  revert called
  generalize received w client chunk = result
  intro called
  cases called with
  | more waiting same _ => exact ⟨_, rfl, waiting, same⟩
  | done is_all _ =>
    rw [flatten_cons, ← append_assoc] at all
    have := congrArg List.length (is_all.trans all.symm)
    simp only [length_append] at this
    omega

theorem Calls.run_spec (calls : Calls w whole waits complete early) (waiting : waits client)
    (some_chunk : chunks ≠ []) (some_bytes : [] ∉ chunks)
    (all : client.str ++ chunks.flatten = whole)
    (timely : ∀ first last, chunks = first ++ last → first ≠ [] → last ≠ [] →
      ¬ early (client.str ++ first.flatten).length) :
    (run w client chunks).2 = List.replicate (chunks.length - 1) .err ++ [.ok] ∧
      complete (run w client chunks).1.response := by
  induction chunks generalizing client with
  | nil => exact absurd rfl some_chunk
  | cons chunk chunks ih =>
    by_cases last : chunks = []
    · subst last
      rw [flatten_cons, List.flatten_nil, append_nil] at all
      have called := calls.call waiting (fun none => some_bytes (by rw [none]; simp))
        ⟨[], by rw [append_nil, all]⟩ (.inl all)
      rw [run]
      revert called
      generalize received w client chunk = result
      intro called
      cases called with
      | more _ _ short =>
        rw [all] at short
        exact absurd short (Nat.lt_irrefl _)
      | done _ is_complete => exact ⟨rfl, is_complete⟩
    · obtain ⟨client', stops, waiting', same⟩ := calls.next waiting some_bytes last all (by
        have := timely [chunk] chunks rfl (by simp) last
        rwa [List.flatten_singleton] at this)
      obtain ⟨rets, is_complete⟩ := ih waiting' last
        (fun none => some_bytes (.tail _ none))
        (by rw [same, append_assoc]; exact all)
        (fun first rest split some_first some_rest => by
          have := timely (chunk :: first) rest (by rw [split]; rfl) (by simp) some_rest
          rw [flatten_cons, ← append_assoc] at this
          rw [same]
          exact this)
      rw [run, stops]
      refine ⟨?_, is_complete⟩
      simp only
      rw [rets, ← List.cons_append, ← List.replicate_succ, List.length_cons,
        Nat.sub_add_cancel (List.length_pos_iff.2 last), Nat.add_sub_cancel]

theorem Calls.run_early (calls : Calls w whole waits complete early) (waiting : waits client)
    (some_bytes : [] ∉ chunks) (all : client.str ++ chunks.flatten = whole)
    {first last : List Bytes} (split : chunks = first ++ last) (some_first : first ≠ [])
    (some_last : last ≠ []) (is_early : early (client.str ++ first.flatten).length) :
    (run w client chunks).2 ≠ List.replicate (chunks.length - 1) .err ++ [.ok] := by
  induction chunks generalizing client first with
  | nil =>
    intro _
    exact some_first (List.append_eq_nil_iff.1 split.symm).1
  | cons chunk chunks ih =>
    obtain ⟨chunk', first, rfl⟩ := List.exists_cons_of_ne_nil some_first
    rw [List.cons_append, List.cons.injEq] at split
    obtain ⟨rfl, split⟩ := split
    have more : chunks ≠ [] := by
      rw [split]
      exact fun none => some_last (List.append_eq_nil_iff.1 none).2
    have positive : chunks.length - 1 + 1 = chunks.length :=
      Nat.sub_add_cancel (List.length_pos_iff.2 more)
    intro rets
    rw [run, List.length_cons, Nat.add_sub_cancel, ← positive, List.replicate_succ,
      List.cons_append, List.cons.injEq] at rets
    by_cases now : early (client.str ++ chunk).length
    · have sent : client.str ++ chunk <+: whole :=
        ⟨chunks.flatten, by rw [← all, flatten_cons, append_assoc]⟩
      rw [calls.report waiting (fun none => some_bytes (by rw [none]; simp)) sent now] at rets
      exact absurd rets.1 (by decide)
    · obtain ⟨client', stops, waiting', same⟩ := calls.next waiting some_bytes more all now
      refine ih waiting' (fun none => some_bytes (.tail _ none))
        (by rw [same, append_assoc]; exact all) split ?_ ?_ ?_
      · rintro rfl
        rw [List.flatten_singleton] at is_early
        exact now is_early
      · rw [same, append_assoc]
        exact is_early
      · rw [stops] at rets
        exact rets.2

theorem Calls.chunked (calls : Calls w whole waits complete early)
    (some_chunk : chunks ≠ []) (some_bytes : [] ∉ chunks) (all : chunks.flatten = whole) :
    Chunked w whole chunks ↔ ¬ EarlyCut early chunks := by
  constructor
  · rintro chunked ⟨first, last, split, some_first, some_last, is_early⟩
    exact calls.run_early calls.asked some_bytes all split some_first some_last is_early chunked.1
  · intro timely
    have some_whole : whole ≠ [] := by
      rw [← all]
      exact flatten_ne_nil some_chunk some_bytes
    obtain ⟨rets, is_complete⟩ := calls.run_spec calls.asked some_chunk some_bytes all
      fun first last split some_first some_last is_early =>
        timely ⟨first, last, split, some_first, some_last, is_early⟩
    have one : complete (run w .asked [whole]).1.response :=
      (calls.run_spec calls.asked (by simp)
        (fun none => some_whole (List.mem_singleton.1 none).symm) (by simp [MysqlClient.asked])
        fun first last split some_first some_last => by
          have := congrArg List.length split
          rw [List.length_singleton, length_append] at this
          have := List.length_pos_iff.2 some_first
          have := List.length_pos_iff.2 some_last
          omega).2
    exact ⟨rets, calls.unique is_complete one⟩

end

/-! ## The first packet -/

section

variable {w : WordSize} {str chunk payload rest left : Bytes} {wait : Bool}
  {type byte number number' : UInt8} {length : Nat}

theorem received_start {response : MysqlResponse} (some_chunk : chunk ≠ [])
    (short : (str ++ chunk).length < 2 ^ 31) : received w ⟨.readStart, str, 0, response⟩ chunk =
      caseReadStart w (str ++ chunk).length ⟨.readStart, str ++ chunk, 0, response⟩ := by
  have positive : 0 < (str ++ chunk).length := by
    have := List.length_pos_iff.2 some_chunk
    rw [length_append]
    omega
  rw [received, mysqlResponse]
  simp only [Nat.sub_zero]
  rw [toInt_of_lt short, if_pos (by omega)]

theorem caseReadStart_few (wait : Bool) (type : UInt8) (length : Nat) (number' : UInt8)
    (fits : payload.length < 2 ^ 24)
    (on : At (packet number payload ++ left) str 0 (packet number payload ++ left))
    (few : str.length < payload.length + 4) : ∃ length' number'', caseReadStart w str.length
        ⟨.readStart, str, 0, startResponse wait type length number'⟩ =
      (⟨.readStart, str, 0, startResponse true type length' number''⟩, .err) := by
  rw [caseReadStart]
  simp only
  by_cases five : str.length - 0 < 5
  · exact ⟨length, number', by rw [if_pos five]; rfl⟩
  · refine ⟨payload.length, number, ?_⟩
    rw [if_neg five, withHeader_eq _ fits on (by simp only; omega)]
    simp only
    rw [if_pos (by omega)]
    rfl

theorem caseReadStart_whole (shape : payload = byte :: rest) (fits : payload.length < 2 ^ 24)
    (on : At (packet number payload ++ left) str 0 (packet number payload ++ left))
    (long : payload.length + 4 ≤ str.length) :
    caseReadStart w str.length ⟨.readStart, str, 0, startResponse wait type length number'⟩ =
      let client : MysqlClient :=
        ⟨.readStart, str, 0, startResponse wait byte payload.length number⟩
      if byte = 0xff then readError client 5
      else if byte = 0xfe then readEof client 5
      else if byte = 0 then readOk client 5 (str.length - 5)
      else readResultSet w client 5 (str.length - 5) := by
  have positive : 0 < payload.length := by
    rw [shape]
    exact Nat.succ_pos _
  have header : MysqlClient.withHeader
      ⟨.readStart, str, 0, startResponse wait type length number'⟩ 0 =
        ⟨.readStart, str, 0, startResponse wait type payload.length number⟩ :=
    withHeader_eq _ fits on (by simp only; omega)
  have first : MysqlClient.byte
      ⟨.readStart, str, 0, startResponse wait type payload.length number⟩ (0 + 4) = byte := by
    rw [MysqlClient.byte_add]
    refine first_of_prefix shape on.drop_prefix ?_
    simp only [MysqlClient.bytesAt, List.drop_zero]
    omega
  rw [caseReadStart]
  simp only
  rw [if_neg (by omega), header]
  simp only [first]
  rw [if_neg]
  · rfl
  · rw [show (startResponse wait type payload.length number).packetLength = payload.length from rfl]
    omega

end

/-! ## Responses of one packet -/

section

variable {w : WordSize} {whole str chunk payload rest left : Bytes} {byte number : UInt8}
  {early : Nat → Prop}

def onePacket (byte : UInt8) (client : MysqlClient) : MysqlClient × Ret :=
  if byte = 0xff then readError client 5
  else if byte = 0xfe then readEof client 5
  else readOk client 5 (client.str.length - 5)

def StartWaiting (whole : Bytes) (client : MysqlClient) : Prop :=
  ∃ str wait type length number, str <+: whole ∧
    client = ⟨.readStart, str, 0, startResponse wait type length number⟩

def OneComplete (whole payload : Bytes) (byte number : UInt8) (response : MysqlResponse) : Prop :=
  ∃ wait, response = (onePacket byte
    ⟨.readStart, whole, 0, startResponse wait byte payload.length number⟩).1.response

theorem onePacket_ok (byte : UInt8) (client : MysqlClient) : (onePacket byte client).2 = .ok := by
  rw [onePacket]
  split_ifs <;> rfl

theorem received_whole (single : byte = 255 ∨ byte = 254 ∨ byte = 0)
    (shape : payload = byte :: rest) (fits : payload.length < 2 ^ 24)
    (short : (packet number payload ++ left).length < 2 ^ 31) (some_chunk : chunk ≠ [])
    (sent : str ++ chunk <+: packet number payload ++ left)
    (long : payload.length + 4 ≤ (str ++ chunk).length) (wait : Bool) (type : UInt8)
    (length : Nat) (number' : UInt8) :
    received w ⟨.readStart, str, 0, startResponse wait type length number'⟩ chunk = onePacket byte
        ⟨.readStart, str ++ chunk, 0, startResponse wait byte payload.length number⟩ := by
  have := sent.length_le
  rw [received_start some_chunk (by omega), caseReadStart_whole shape fits (.start sent) long]
  simp only [onePacket]
  split_ifs with error eof ok
  · rfl
  · rfl
  · rfl
  · rcases single with is_error | is_eof | is_ok
    · exact absurd is_error error
    · exact absurd is_eof eof
    · exact absurd is_ok ok

theorem onePacket_calls (w : WordSize) (number : UInt8) (left : Bytes) (early : Nat → Prop)
    (single : byte = 255 ∨ byte = 254 ∨ byte = 0)
    (shape : payload = byte :: rest) (fits : payload.length < 2 ^ 24)
    (short : (packet number payload ++ left).length < 2 ^ 31)
    (early_long : ∀ n, early n → payload.length + 4 ≤ n)
    (long_early : ∀ n, payload.length + 4 ≤ n → n < (packet number payload ++ left).length →
      early n) :
    Calls w (packet number payload ++ left) (StartWaiting (packet number payload ++ left))
      (OneComplete (packet number payload ++ left) payload byte number) early where
  asked := ⟨[], false, 0, 0, 0, List.nil_prefix, rfl⟩
  call := by
    rintro client chunk ⟨str, wait, type, length, number', -, rfl⟩ some_chunk sent timely
    simp only at sent timely ⊢
    have bound := sent.length_le
    by_cases few : (str ++ chunk).length < payload.length + 4
    · obtain ⟨length', number'', waits⟩ := caseReadStart_few wait type length number'
        fits (.start sent) few
      rw [received_start some_chunk (by omega), waits]
      refine .more ⟨_, _, _, _, _, sent, rfl⟩ rfl ?_
      simp only [length_append, length_packet] at few ⊢
      omega
    · have all : str ++ chunk = packet number payload ++ left := by
        rcases timely with all | timely
        · exact all
        · by_contra other
          have : (str ++ chunk).length ≠ (packet number payload ++ left).length :=
            fun same => other (sent.eq_of_length same)
          exact timely (long_early _ (by omega) (by omega))
      have result := received_whole (w := w) single shape fits short some_chunk sent (by omega)
        wait type length number'
      have ok := onePacket_ok byte
        ⟨.readStart, str ++ chunk, 0, startResponse wait byte payload.length number⟩
      rw [result, show onePacket byte _ = ((onePacket byte ⟨.readStart, str ++ chunk, 0,
        startResponse wait byte payload.length number⟩).1, Ret.ok) from Prod.ext rfl ok]
      exact .done all ⟨wait, by rw [all]⟩
  report := by
    rintro client chunk ⟨str, wait, type, length, number', -, rfl⟩ some_chunk sent is_early
    rw [received_whole single shape fits short some_chunk sent (early_long _ is_early)]
    exact onePacket_ok _ _
  unique := by
    rintro client client' ⟨wait, same⟩ ⟨wait', same'⟩
    rw [answer, answer, same, same', onePacket, onePacket]
    split_ifs <;> rfl

end

namespace ResultSet

variable {w : WordSize} {set : ResultSet} {str chunk : Bytes} {offset : Nat} {wait : Bool}
  {length : Nat} {number : UInt8}

theorem lenenc_columns (set : ResultSet) :
    ∃ rest, lenenc set.columns.length = set.type :: rest := by
  obtain ⟨byte, rest, shape⟩ := List.exists_cons_of_ne_nil
    (List.length_pos_iff.1 (lenenc_pos set.columns.length))
  exact ⟨rest, by rw [type, shape]; rfl⟩

theorem length_lenenc_le (n : Nat) : (lenenc n).length ≤ 9 := by
  unfold lenenc
  split_ifs <;> simp [leBytes_length]

theorem length_lenenc_eq_one_iff {n : Nat} : (lenenc n).length = 1 ↔ n ≤ 250 := by
  unfold lenenc
  split_ifs <;> simp [leBytes_length] <;> omega

theorem type_ne (wf : set.WellFormed) (few : set.columns.length < 2 ^ 24) :
    set.type ≠ 0xff ∧ set.type ≠ 0xfe ∧ set.type ≠ 0 := by
  have positive := List.length_pos_iff.2 wf.some_columns
  rw [type, lenenc]
  split_ifs with one two
  · have value : (UInt8.ofNat set.columns.length).toNat = set.columns.length := by
      rw [UInt8.toNat_ofNat']
      omega
    refine ⟨?_, ?_, ?_⟩
    all_goals
      intro same
      rw [List.headD_cons] at same
      rw [same] at value
      simp at value
      omega
  · rw [List.headD_cons]
    exact ⟨by decide, by decide, by decide⟩
  · rw [List.headD_cons]
    exact ⟨by decide, by decide, by decide⟩

theorem mysqlLcbLl_lenenc_eq_none {n : Nat} (large : 2 ^ 16 ≤ n) (small : n < 2 ^ 24) :
    mysqlLcbLl (lenenc n) = none := by
  rw [lenenc, if_neg (by omega), if_neg (by omega), if_pos small, mysqlLcbLl,
    if_neg (by decide), if_neg (by decide), if_pos rfl, if_pos]
  rw [leBytes_length]
  decide

theorem readResultSet_eq (wf : set.WellFormed) (sent : str <+: set.bytes)
    (long : (lenenc set.columns.length).length + 4 ≤ str.length)
    (room : 2 ^ 16 ≤ set.columns.length → set.columns.length < 2 ^ 24 →
      (lenenc set.columns.length).length + 4 < str.length) : readResultSet w ⟨.readStart, str, 0,
          startResponse wait set.type (lenenc set.columns.length).length set.number⟩ 5
        (str.length - 5) =
      let client : MysqlClient := ⟨.readField, str, 0 + (4 + (lenenc set.columns.length).length),
        set.fieldsResponse [] set.columns wait (lenenc set.columns.length).length set.number⟩
      if 0 < (str.length : Int) - 5 then caseReadField w (str.length - 5) client
      else (client, .ok) := by
  have on : At set.bytes str 0 (set.header ++ (set.columns.flatMap ColumnDef.bytes ++
    set.afterColumns)) := .start sent
  have positive := lenenc_pos set.columns.length
  have payload := bytesAt_payload ⟨.readStart, str, 0,
    startResponse wait set.type (lenenc set.columns.length).length set.number⟩ on long
  have taken : (((str.length : Int) - 5) + 1).toNat = str.length - 4 := by omega
  have all : (MysqlClient.bytesAt ⟨.readStart, str, 0, startResponse wait set.type
      (lenenc set.columns.length).length set.number⟩ (0 + 4)).length ≤ str.length - 4 :=
    Nat.le_of_eq (by rw [MysqlClient.bytesAt, List.length_drop])
  rw [readResultSet, taken, show 5 - 1 = 0 + 4 from rfl, List.take_of_length_le all, payload,
    mysqlLcbLl_lenenc wf.columns_lt]
  · rfl
  · intro large small none
    have behind : str.length - (0 + ((lenenc set.columns.length).length + 4)) = 0 := by
      have := congrArg List.length none
      rw [MysqlClient.bytesAt, List.length_drop] at this
      exact this
    have := room large small
    omega

theorem readResultSet_spec (wf : set.WellFormed) (short : set.bytes.length < 2 ^ 31)
    (few : set.columns.length < 2 ^ 24) (sent : str <+: set.bytes)
    (long : (lenenc set.columns.length).length + 4 ≤ str.length)
    (timely : ¬ (set.columns.length ≤ 250 ∧ str.length = 5)) : set.Outcome w str (readResultSet w
      ⟨.readStart, str, 0,
        startResponse wait set.type (lenenc set.columns.length).length set.number⟩ 5
      (str.length - 5)) := by
  have positive := lenenc_pos set.columns.length
  have on : At set.bytes str 0 (set.header ++ (set.columns.flatMap ColumnDef.bytes ++
    set.afterColumns)) := .start sent
  have size : set.header.length = (lenenc set.columns.length).length + 4 := length_packet _ _
  by_cases room : 2 ^ 16 ≤ set.columns.length → (lenenc set.columns.length).length + 4 < str.length
  · have next := on.advance (by rw [size]; omega)
    rw [size, Nat.add_comm _ 4] at next
    have more : 0 < (str.length : Int) - 5 := by
      by_contra stop
      exact timely ⟨length_lenenc_eq_one_iff.1 (by omega), by omega⟩
    rw [readResultSet_eq wf sent long fun large _ => room large]
    simp only
    rw [if_pos more]
    exact caseReadField_spec wf short (List.nil_append _) more next
  · rw [Classical.not_imp] at room
    have exactly : str.length = (lenenc set.columns.length).length + 4 := by omega
    have payload := bytesAt_payload ⟨.readStart, str, 0,
      startResponse wait set.type (lenenc set.columns.length).length set.number⟩ on long
    have none : MysqlClient.bytesAt ⟨.readStart, str, 0, startResponse wait set.type
        (lenenc set.columns.length).length set.number⟩
          (0 + ((lenenc set.columns.length).length + 4)) = [] := by
      rw [MysqlClient.bytesAt, Nat.zero_add, ← exactly]
      exact List.drop_length
    rw [none, append_nil] at payload
    rw [readResultSet, show 5 - 1 = 0 + 4 from rfl, payload, List.take_of_length_le (by omega),
      mysqlLcbLl_lenenc_eq_none room.1 few]
    have waits : set.Waiting w ⟨.readStart, str, 0,
      startResponse wait set.type (lenenc set.columns.length).length set.number⟩ := .start sent
    refine .more waits rfl (on.lt_of_lt ?_)
    rw [length_append, length_append, size, afterColumns, length_append, length_eof]
    omega

theorem Waiting.received (wf : set.WellFormed) (short : set.bytes.length < 2 ^ 31)
    (few : set.columns.length < 2 ^ 24) {client : MysqlClient} (waiting : set.Waiting w client)
    (some_chunk : chunk ≠ []) (sent : client.str ++ chunk <+: set.bytes)
    (timely : ¬ (set.columns.length ≤ 250 ∧ (client.str ++ chunk).length = 5)) :
    set.Outcome w (client.str ++ chunk) (Mysql.received w client chunk) := by
  have bound := sent.length_le
  have positive := List.length_pos_iff.2 some_chunk
  cases waiting with
  | @start str wait type length number _ =>
    simp only at sent timely bound ⊢
    obtain ⟨rest, shape⟩ := lenenc_columns set
    have fits : (lenenc set.columns.length).length < 2 ^ 24 := by
      have := length_lenenc_le set.columns.length
      omega
    rw [received_start some_chunk (by omega)]
    by_cases missing : (str ++ chunk).length < (lenenc set.columns.length).length + 4
    · obtain ⟨length', number', waits⟩ := caseReadStart_few wait type length number
        fits (.start sent) missing
      rw [waits]
      refine .more (.start sent) rfl (Nat.lt_of_lt_of_le missing ?_)
      rw [bytes, length_append, header, length_packet]
      omega
    · obtain ⟨not_error, not_eof, not_ok⟩ := type_ne wf few
      rw [caseReadStart_whole shape fits (.start sent) (by omega)]
      simp only
      rw [if_neg not_error, if_neg not_eof, if_neg not_ok]
      exact readResultSet_spec wf short few sent (by omega) timely
  | @fields pre post str offset wait length number split on =>
    simp only at sent bound ⊢
    have taken := on.taken
    have left : 0 < ((str ++ chunk).length - offset : Nat) := by
      rw [length_append]
      omega
    rw [Mysql.received, mysqlResponse]
    simp only
    rw [toInt_of_lt (by omega), if_pos (by omega)]
    exact caseReadField_spec wf short split (by omega) (on.more sent)
  | @rows pre post str offset wait length number split on =>
    simp only at sent bound ⊢
    have taken := on.taken
    have left : 0 < ((str ++ chunk).length - offset : Nat) := by
      rw [length_append]
      omega
    rw [Mysql.received, mysqlResponse]
    simp only
    rw [toInt_of_lt (by omega), if_pos (by omega)]
    exact caseReadRow_spec wf short split (on.more sent)

theorem Waiting.header_taken {client : MysqlClient} (waiting : set.Waiting w client)
    (past : client.state ≠ .readStart) : 5 ≤ client.str.length := by
  have size : set.header.length = (lenenc set.columns.length).length + 4 := length_packet _ _
  have positive := lenenc_pos set.columns.length
  cases waiting with
  | start => exact absurd rfl past
  | @fields pre post str offset wait length number split on =>
    have whole := on.length_left
    have taken := on.taken
    rw [bytes, ← split] at whole
    simp only [length_append, List.flatMap_append] at whole
    simp only
    omega
  | @rows pre post str offset wait length number split on =>
    have whole := on.length_left
    have taken := on.taken
    rw [bytes, afterColumns, ← split] at whole
    simp only [length_append, List.flatMap_append] at whole
    simp only
    omega

theorem calls (wf : set.WellFormed) (short : set.bytes.length < 2 ^ 31)
    (few : set.columns.length < 2 ^ 24) :
    Calls w set.bytes (set.Waiting w) (set.Complete w) (Response.resultSet set).Early where
  asked :=
    have waits : set.Waiting w ⟨.readStart, [], 0, startResponse false 0 0 0⟩ :=
      .start List.nil_prefix
    waits
  call waiting some_chunk sent timely := by
    refine waiting.received wf short few some_chunk sent fun ⟨small, five⟩ => ?_
    rcases timely with all | timely
    · have size := congrArg List.length all
      have positive := lenenc_pos set.columns.length
      rw [five, bytes, length_append, length_append, header, length_packet, afterColumns,
        length_append, length_eof] at size
      omega
    · exact timely (.inl ⟨small, five⟩)
  report {client chunk} waiting some_chunk sent is_early := by
    have positive := List.length_pos_iff.2 some_chunk
    rcases is_early with ⟨small, five⟩ | ⟨large, _⟩
    · by_cases past : client.state = .readStart
      · cases waiting with
        | @start str wait type length number _ =>
          simp only at sent five ⊢
          obtain ⟨rest, shape⟩ := lenenc_columns set
          obtain ⟨not_error, not_eof, not_ok⟩ := type_ne wf few
          have one := length_lenenc_eq_one_iff.2 small
          rw [received_start some_chunk (by omega), caseReadStart_whole shape
            (by omega) (.start sent) (by omega)]
          simp only
          rw [if_neg not_error, if_neg not_eof, if_neg not_ok,
            readResultSet_eq wf sent (by omega) fun large => absurd large (by omega)]
          simp only
          rw [if_neg (by omega)]
        | fields => cases past
        | rows => cases past
      · have taken := waiting.header_taken past
        rw [length_append] at five
        omega
    · omega
  unique := by
    rintro client client' ⟨wait, same⟩ ⟨wait', same'⟩
    rw [answer, answer, same, same']
    rfl

end ResultSet

/-! ## All responses -/

variable {response : Response} {chunks : List Bytes}

/-- A response in chunks is read like the whole exactly if no cut is where it is reported too
early. -/
theorem chunked_iff (w : WordSize) (wf : response.WellFormed)
    (short : response.bytes.length < 2 ^ 31) (some_chunk : chunks ≠ []) (some_bytes : [] ∉ chunks)
    (all : chunks.flatten = response.bytes) :
    Chunked w response.bytes chunks ↔ ¬ EarlyCut response.Early chunks := by
  cases response with
  | ok sent =>
    have calls := onePacket_calls w sent.number [] (Response.ok sent).Early (.inr (.inr rfl))
      (rfl : sent.payload = 0 :: _) (Nat.lt_of_lt_of_le wf (by decide))
      (by rw [append_nil]; exact short)
      (fun _ never => never.elim) (fun n long few => by
        rw [append_nil, length_packet] at few
        omega)
    rw [append_nil] at calls
    exact calls.chunked some_chunk some_bytes all
  | err sent =>
    have calls := onePacket_calls w sent.number [] (Response.err sent).Early (.inl rfl)
      (rfl : sent.payload = 255 :: _) (Nat.lt_of_lt_of_le wf.2 (by decide))
      (by rw [append_nil]; exact short)
      (fun _ never => never.elim) (fun n long few => by
        rw [append_nil, length_packet] at few
        omega)
    rw [append_nil] at calls
    exact calls.chunked some_chunk some_bytes all
  | resultSet set =>
    by_cases few : set.columns.length < 2 ^ 24
    · exact (ResultSet.calls wf short few).chunked some_chunk some_bytes all
    · have shape : lenenc set.columns.length = 254 :: leBytes 8 set.columns.length := by
        rw [lenenc, if_neg (by omega), if_neg (by omega), if_neg few]
      have nine : (lenenc set.columns.length).length = 9 := by
        rw [shape, List.length_cons, leBytes_length]
      have early_iff : ∀ n, (Response.resultSet set).Early n ↔ 13 ≤ n := by
        intro n
        rw [Response.Early]
        omega
      exact (onePacket_calls w set.number _ (Response.resultSet set).Early
        (.inr (.inl rfl)) shape (by rw [nine]; decide) short
        (fun n is_early => by rw [nine]; exact (early_iff n).1 is_early)
        (fun n long _ => (early_iff n).2 (by rw [nine] at long; exact long))).chunked
          some_chunk some_bytes all

def sampleSet : ResultSet where
  number := 1
  columns := [⟨2, [100, 101, 102], [], [], [], [97], [], 63, 1, 253, 0, 0⟩]
  columnsEnd := ⟨3, 0, 2⟩
  rows := [⟨4, [some [55]]⟩]
  rowsEnd := ⟨5, 0, 2⟩

theorem sampleSet_wellFormed : (Response.resultSet sampleSet).WellFormed where
  some_columns := List.cons_ne_nil _ _
  columns_lt := by decide
  column_lt := by decide
  row_width := by decide
  row_lt := by decide

theorem chunked_iff_sample : Chunked .eight sampleSet.bytes
        [sampleSet.bytes.take 4, (sampleSet.bytes.drop 4).take 20, sampleSet.bytes.drop 24] ↔
      ¬ EarlyCut (Response.resultSet sampleSet).Early
        [sampleSet.bytes.take 4, (sampleSet.bytes.drop 4).take 20, sampleSet.bytes.drop 24] :=
  @chunked_iff (.resultSet sampleSet) _ .eight sampleSet_wellFormed (by decide) (by decide)
    (by decide) (by decide)

/-- With a cut behind its header, the response is reported before there are columns. -/
theorem not_chunked :
    ¬ ∀ (w : WordSize) (response : Response) (chunks : List Bytes), response.WellFormed →
      response.bytes.length < 2 ^ 31 → chunks ≠ [] → [] ∉ chunks →
      chunks.flatten = response.bytes → Chunked w response.bytes chunks := by
  intro always
  have chunked := always .eight (.resultSet sampleSet)
    [sampleSet.bytes.take 5, sampleSet.bytes.drop 5] sampleSet_wellFormed (by decide) (by decide)
    (by decide) (by decide)
  exact absurd chunked.1 (by decide)

end PhpExts.Swoole.Mysql
