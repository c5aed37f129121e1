import Mathlib

/-!
# Output buffers

`Buffer.c` and the functions of `Connection.c` that drain an output buffer into a socket. The
chunks are data, ranges of files, and a close; the field `length` counts the bytes of the data
chunks in 32 bits.

Draining never changes the stream, which is what the socket has accepted and what the chunks
hold behind it (`drain_stream`), as long as no send fails for good.
-/

namespace PhpExts.Swoole.OutBuffer

abbrev Bytes := List UInt8

/-- `swBuffer_trunk` by its type. A file is its contents; `length` is where the range ends. -/
inductive Trunk where
  | data (bytes : Bytes) (offset : Nat)
  | sendfile (file : Bytes) (offset length : Nat)
  | close

namespace Trunk

/-- The field `length`, which only data has. -/
def length : Trunk → Nat
  | data bytes _ => bytes.length
  | _ => 0

def rest : Trunk → Bytes
  | data bytes offset => bytes.drop offset
  | sendfile file offset length => (file.take length).drop offset
  | close => []

end Trunk

structure Buffer where
  length : Nat
  trunks : List Trunk

namespace Buffer

/-- `swBuffer_new`. -/
def new : Buffer := ⟨0, []⟩

def newTrunk (buffer : Buffer) (trunk : Trunk) : Buffer :=
  { buffer with trunks := buffer.trunks ++ [trunk] }

def popTrunk (buffer : Buffer) : Buffer :=
  match buffer.trunks with
  | [] => buffer
  | [_] => ⟨0, []⟩
  | trunk :: next => ⟨(buffer.length + (2 ^ 32 - trunk.length % 2 ^ 32)) % 2 ^ 32, next⟩

def append (buffer : Buffer) (bytes : Bytes) : Buffer :=
  let buffer' := buffer.newTrunk (.data bytes 0)
  { buffer' with length := (buffer.length + bytes.length) % 2 ^ 32 }

def total (buffer : Buffer) : Nat := (buffer.trunks.map Trunk.length).sum

def rest (buffer : Buffer) : Bytes := buffer.trunks.flatMap Trunk.rest

end Buffer

/-! ## `Connection.c` -/

/-- The value of `errno` behind a call, by what `swConnection_error` and the callers make of it:
`EAGAIN`, `EINTR`, the ones of a connection that is lost, and any other. -/
inductive Errno where
  | zero
  | again
  | intr
  | lost
  | other
  deriving DecidableEq

/-- What `send` or `sendfile` has returned, nothing for -1, and the `errno` behind it. -/
structure SendResult where
  accepted : Option Nat
  errno : Errno

inductive ErrorKind where
  | error
  | close
  | wait

def connectionError : Errno → ErrorKind
  | .zero | .again => .wait
  | .lost => .close
  | .intr | .other => .error

/-- The fields of `swConnection` that the buffer's functions use, and the bytes the kernel has
accepted. -/
structure Connection where
  outBuffer : Option Buffer
  sendWait : Bool
  closeWait : Bool
  accepted : Bytes

namespace Connection

def trunks (conn : Connection) : List Trunk :=
  match conn.outBuffer with
  | none => []
  | some buffer => buffer.trunks

def popTrunk (conn : Connection) : Connection :=
  { conn with outBuffer := conn.outBuffer.map Buffer.popTrunk }

def setHead (conn : Connection) (trunk : Trunk) : Connection :=
  { conn with
    outBuffer := conn.outBuffer.map fun buffer =>
      { buffer with trunks := trunk :: buffer.trunks.tail } }

def accept (conn : Connection) (bytes : Bytes) : Connection :=
  { conn with accepted := conn.accepted ++ bytes }

def sendfileChunkSize : Nat := 65536

/-- `swConnection_buffer_send` behind its `send`. The flag is whether it returns `SW_OK`. -/
def bufferSend (conn : Connection) (bytes : Bytes) (offset : Nat) (result : SendResult) :
    Connection × Bool :=
  match result.accepted with
  | none =>
    match connectionError result.errno with
    | .error => (conn, true)
    | .close => ({ conn with closeWait := true }, false)
    | .wait => ({ conn with sendWait := true }, false)
  | some n =>
    let ret := min n (bytes.length - offset)
    let conn := conn.accept ((bytes.drop offset).take ret)
    if ret = bytes.length - offset then (conn.popTrunk, true)
    else (conn.setHead (.data bytes (offset + ret)), true)

/-- `swConnection_onSendfile` behind its `sendfile`. -/
def onSendfile (conn : Connection) (file : Bytes) (offset length : Nat) (result : SendResult) :
    Connection × Bool :=
  let sendn := min sendfileChunkSize (length - offset)
  let ret := min (result.accepted.getD 0) sendn
  let conn := (conn.accept ((file.drop offset).take ret)).setHead
    (.sendfile file (offset + ret) length)
  let finish := if length ≤ offset + ret then conn.popTrunk else conn
  if ret = 0 then
    match connectionError result.errno with
    | .error => (conn.popTrunk, true)
    | .close => ({ conn with closeWait := true }, false)
    | .wait => (finish, true)
  else (finish, true)

def sendTrunk (conn : Connection) (result : SendResult) : Trunk → Connection × Bool
  | .data bytes offset => conn.bufferSend bytes offset result
  | .sendfile file offset length => conn.onSendfile file offset length result
  | .close => (conn, true)

/-- What the kernel has accepted, and what the chunks hold behind it. -/
def stream (conn : Connection) : Bytes := conn.accepted ++ conn.trunks.flatMap Trunk.rest

theorem stream_of_empty {conn : Connection} (nothing : conn.trunks = []) :
    conn.stream = conn.accepted := by
  rw [stream, nothing, List.flatMap_nil, List.append_nil]

theorem stream_accept {conn : Connection} (nothing : conn.trunks = []) (bytes : Bytes) :
    (conn.accept bytes).stream = conn.stream ++ bytes := by
  have empty : (conn.accept bytes).trunks = [] := nothing
  rw [stream_of_empty nothing, stream_of_empty empty]
  rfl

theorem trunks_popTrunk (conn : Connection) : conn.popTrunk.trunks = conn.trunks.tail := by
  obtain ⟨buffer, sendWait, closeWait, accepted⟩ := conn
  cases buffer with
  | none => rfl
  | some buffer =>
    obtain ⟨length, trunks⟩ := buffer
    cases trunks with
    | nil => rfl
    | cons trunk rest => cases rest <;> rfl

theorem trunks_setHead {conn : Connection} {head : Trunk} {rest : List Trunk}
    (trunks : conn.trunks = head :: rest) (trunk : Trunk) :
    (conn.setHead trunk).trunks = trunk :: rest := by
  obtain ⟨buffer, sendWait, closeWait, accepted⟩ := conn
  cases buffer with
  | none => cases trunks
  | some buffer =>
    have whole : buffer.trunks = head :: rest := trunks
    simp [setHead, Connection.trunks, whole]

theorem length_sendTrunk {conn : Connection} {head : Trunk} {rest : List Trunk}
    (trunks : conn.trunks = head :: rest) (result : SendResult) :
    (conn.sendTrunk result head).1.trunks.length ≤ conn.trunks.length := by
  have accept : ∀ bytes, (conn.accept bytes).trunks = head :: rest := fun _ => trunks
  have set : ∀ bytes trunk, ((conn.accept bytes).setHead trunk).trunks.length =
      conn.trunks.length := by
    intro bytes trunk
    rw [trunks_setHead (accept bytes), trunks, List.length_cons, List.length_cons]
  have pop : ∀ conn : Connection, conn.popTrunk.trunks.length ≤ conn.trunks.length := by
    intro conn
    rw [trunks_popTrunk, List.length_tail]
    exact Nat.sub_le _ _
  cases head with
  | data bytes offset =>
    simp only [sendTrunk, bufferSend]
    split
    · split <;> exact Nat.le_refl _
    · split
      · exact pop _
      · exact Nat.le_of_eq (set _ _)
  | sendfile file offset length =>
    have finish : ∀ b : Prop, ∀ [Decidable b], ∀ bytes trunk,
        (if b then ((conn.accept bytes).setHead trunk).popTrunk
          else (conn.accept bytes).setHead trunk).trunks.length ≤ conn.trunks.length := by
      intro b _ bytes trunk
      split
      · exact Nat.le_trans (pop _) (Nat.le_of_eq (set _ _))
      · exact Nat.le_of_eq (set _ _)
    simp only [sendTrunk, onSendfile]
    split
    · split
      · exact Nat.le_trans (pop _) (Nat.le_of_eq (set _ _))
      · exact Nat.le_of_eq (set _ _)
      · exact finish _ _ _
    · exact finish _ _ _
  | close => exact Nat.le_refl _

end Connection

/-- How the loop over the output buffer ends: the buffer is empty, the socket takes no more, the
connection is to be closed, or a call has not returned yet. -/
inductive Drained where
  | empty (conn : Connection)
  | waits (conn : Connection)
  | close (conn : Connection)
  | unfinished (conn : Connection)

def Drained.conn : Drained → Connection
  | empty conn | waits conn | close conn | unfinished conn => conn

/-- A data chunk without a byte left, which `swConnection_buffer_send` pops without a `send`. -/
def Trunk.sent : Trunk → Bool
  | .data bytes offset => bytes.length - offset == 0
  | _ => false

/-- The loop of `swReactor_onWrite` and of `swReactorThread_onWrite`, with the results of the
calls to come. -/
def drain (conn : Connection) (results : List SendResult) : Drained :=
  match _trunks : conn.trunks with
  | [] => .empty conn
  | .close :: _ => .close conn
  | trunk :: _ =>
    if trunk.sent then drain conn.popTrunk results
    else
      match results with
      | [] => .unfinished conn
      | result :: results =>
        let sent := conn.sendTrunk result trunk
        if sent.2 then drain sent.1 results
        else if sent.1.closeWait then .close sent.1
        else if sent.1.sendWait then .waits sent.1
        else drain sent.1 results
termination_by results.length + conn.trunks.length
decreasing_by
  · rw [Connection.trunks_popTrunk, _trunks]
    simp
  all_goals
    have := Connection.length_sendTrunk _trunks result
    simp only [List.length_cons]
    omega

/-! ## Draining keeps the stream -/

namespace Trunk

/-- The offset lies within the chunk, and a range within its file. -/
def Valid : Trunk → Prop
  | data bytes offset => offset ≤ bytes.length
  | sendfile file offset length => offset ≤ length ∧ length ≤ file.length
  | close => True

def isFile : Trunk → Bool
  | sendfile .. => true
  | _ => false

def isClose : Trunk → Bool
  | close => true
  | _ => false

end Trunk

namespace Buffer

/-- The field `length` counts modulo the width of the field. -/
def Sized (buffer : Buffer) : Prop := buffer.length = buffer.total % 2 ^ 32

theorem sized_new : Buffer.new.Sized := rfl

theorem total_append (buffer : Buffer) (bytes : Bytes) :
    (buffer.append bytes).total = buffer.total + bytes.length := by
  simp [total, append, newTrunk, Trunk.length]

theorem Sized.append {buffer : Buffer} (sized : buffer.Sized) (bytes : Bytes) :
    (buffer.append bytes).Sized := by
  unfold Sized at sized ⊢
  rw [total_append]
  simp only [Buffer.append]
  omega

theorem Sized.popTrunk {buffer : Buffer} (sized : buffer.Sized) : buffer.popTrunk.Sized := by
  obtain ⟨length, trunks⟩ := buffer
  cases trunks with
  | nil => exact sized
  | cons trunk rest =>
    cases rest with
    | nil => rfl
    | cons next rest =>
      have whole : length = (trunk.length + ((next :: rest).map Trunk.length).sum) % 2 ^ 32 := by
        simpa [Sized, total] using sized
      simp only [Buffer.popTrunk, Sized, total]
      omega

end Buffer

namespace Connection

variable {conn : Connection}

def Valid (conn : Connection) : Prop := ∀ trunk ∈ conn.trunks, trunk.Valid

def Sized (conn : Connection) : Prop := ∀ buffer, conn.outBuffer = some buffer → buffer.Sized

def total (conn : Connection) : Nat := (conn.trunks.map Trunk.length).sum

def untilClose : List Trunk → Bytes
  | [] => []
  | trunk :: rest => if trunk.isClose then [] else trunk.rest ++ untilClose rest

/-- A step of the loop: the stream is the same, also up to a close, and the chunks are the old
ones behind the head and perhaps the head with another offset. -/
structure Kept (conn conn' : Connection) : Prop where
  stream : conn'.stream = conn.stream
  untilClose : conn'.accepted ++ untilClose conn'.trunks =
    conn.accepted ++ untilClose conn.trunks
  valid : conn'.Valid
  sized : conn'.Sized
  total : conn'.total ≤ conn.total
  files : ∀ trunk ∈ conn'.trunks, trunk.isFile = true → ∃ old ∈ conn.trunks, old.isFile = true
  closes : .close ∈ conn'.trunks ↔ .close ∈ conn.trunks

theorem Kept.refl (valid : conn.Valid) (sized : conn.Sized) : Kept conn conn :=
  ⟨rfl, rfl, valid, sized, Nat.le_refl _, fun trunk mem file => ⟨trunk, mem, file⟩,
    Iff.rfl⟩

theorem Kept.trans {conn' conn'' : Connection} (first : Kept conn conn')
    (second : Kept conn' conn'') : Kept conn conn'' where
  stream := second.stream.trans first.stream
  untilClose := second.untilClose.trans first.untilClose
  valid := second.valid
  sized := second.sized
  total := Nat.le_trans second.total first.total
  files trunk mem file := by
    obtain ⟨old, mem', file'⟩ := second.files trunk mem file
    exact first.files old mem' file'
  closes := second.closes.trans first.closes

theorem sized_popTrunk (sized : conn.Sized) : conn.popTrunk.Sized := by
  intro buffer here
  obtain ⟨old, known, rfl⟩ := Option.map_eq_some_iff.mp here
  exact (sized old known).popTrunk

theorem sized_setHead {head trunk : Trunk} {rest : List Trunk} (sized : conn.Sized)
    (trunks : conn.trunks = head :: rest) (same : trunk.length = head.length) :
    (conn.setHead trunk).Sized := by
  intro buffer here
  obtain ⟨old, known, rfl⟩ := Option.map_eq_some_iff.mp here
  have whole : old.trunks = head :: rest := by
    rw [Connection.trunks, known] at trunks
    exact trunks
  have before := sized old known
  simp only [Buffer.Sized, Buffer.total, whole, List.map_cons, List.tail_cons, same] at before ⊢
  exact before

theorem kept_pop {head : Trunk} {rest : List Trunk} {bytes : Bytes} (valid : conn.Valid)
    (sized : conn.Sized) (trunks : conn.trunks = head :: rest) (all : bytes = head.rest)
    (notClose : head.isClose = false) : Kept conn (conn.accept bytes).popTrunk := by
  have after : (conn.accept bytes).popTrunk.trunks = rest := by
    rw [trunks_popTrunk]
    change conn.trunks.tail = rest
    rw [trunks, List.tail_cons]
  have behind : ∀ trunk ∈ rest, trunk ∈ conn.trunks := by
    intro trunk mem
    rw [trunks]
    exact .tail _ mem
  refine ⟨?_, ?_, ?_, sized_popTrunk sized, ?_, ?_, ?_⟩
  · rw [Connection.stream, Connection.stream, after, trunks, List.flatMap_cons, all]
    change conn.accepted ++ head.rest ++ _ = _
    rw [List.append_assoc]
  · rw [after, trunks, untilClose, notClose, all]
    change conn.accepted ++ head.rest ++ _ = _
    rw [List.append_assoc]
    rfl
  · intro trunk mem
    rw [after] at mem
    exact valid trunk (behind trunk mem)
  · rw [Connection.total, Connection.total, after, trunks, List.map_cons, List.sum_cons]
    exact Nat.le_add_left _ _
  · intro trunk mem file
    rw [after] at mem
    exact ⟨trunk, behind trunk mem, file⟩
  · rw [after, trunks, List.mem_cons, or_iff_right]
    rintro rfl
    cases notClose

theorem kept_set {head trunk : Trunk} {rest : List Trunk} {bytes : Bytes} (valid : conn.Valid)
    (sized : conn.Sized) (trunks : conn.trunks = head :: rest) (within : trunk.Valid)
    (same : trunk.length = head.length) (sent : bytes ++ trunk.rest = head.rest)
    (file : trunk.isFile = head.isFile) (notClose : trunk.isClose = false)
    (headNotClose : head.isClose = false) : Kept conn ((conn.accept bytes).setHead trunk) := by
  have accepted : (conn.accept bytes).trunks = head :: rest := trunks
  have after := trunks_setHead accepted trunk
  have behind : ∀ trunk ∈ rest, trunk ∈ conn.trunks := by
    intro trunk mem
    rw [trunks]
    exact .tail _ mem
  refine ⟨?_, ?_, ?_, sized_setHead sized accepted same, ?_, ?_, ?_⟩
  · rw [Connection.stream, Connection.stream, after, trunks, List.flatMap_cons,
      List.flatMap_cons, ← sent]
    change conn.accepted ++ bytes ++ _ = _
    simp only [List.append_assoc]
  · rw [after, trunks, untilClose, untilClose, notClose, headNotClose, ← sent]
    change conn.accepted ++ bytes ++ _ = _
    simp
  · intro other mem
    rw [after] at mem
    rcases List.mem_cons.mp mem with rfl | mem
    · exact within
    · exact valid other (behind other mem)
  · rw [Connection.total, Connection.total, after, trunks, List.map_cons, List.map_cons, same]
  · intro other mem isFile
    rw [after] at mem
    rcases List.mem_cons.mp mem with rfl | mem
    · exact ⟨head, by simp [trunks], by rw [← file]; exact isFile⟩
    · exact ⟨other, behind other mem, isFile⟩
  · rw [after, trunks, List.mem_cons, List.mem_cons]
    refine or_congr_left ⟨?_, ?_⟩
    · rintro rfl
      cases notClose
    · rintro rfl
      cases headNotClose

theorem kept_flags (valid : conn.Valid) (sized : conn.Sized) (sendWait closeWait : Bool) :
    Kept conn { conn with
      sendWait := sendWait
      closeWait := closeWait } :=
  ⟨rfl, rfl, valid, sized, Nat.le_refl _, fun trunk mem file => ⟨trunk, mem, file⟩,
    Iff.rfl⟩

/-- What is asked of the result for a chunk at the head: no error for good, and for a file
either a byte or `EAGAIN`. -/
def Serves (trunk : Trunk) (result : SendResult) : Prop :=
  (result.accepted = none → result.errno = .again ∨ result.errno = .intr) ∧
    (trunk.isFile = true → 0 < result.accepted.getD 0 ∨ result.errno = .again)

theorem kept_bufferSend {bytes : Bytes} {offset : Nat} {rest : List Trunk} (valid : conn.Valid)
    (sized : conn.Sized) (trunks : conn.trunks = .data bytes offset :: rest)
    {result : SendResult} (serves : Serves (.data bytes offset) result) :
    Kept conn (conn.bufferSend bytes offset result).1 ∧
      ((conn.bufferSend bytes offset result).2 = false →
        (conn.bufferSend bytes offset result).1 = { conn with sendWait := true }) ∧
      (conn.bufferSend bytes offset result).1.closeWait = conn.closeWait := by
  have within : offset ≤ bytes.length := valid (.data bytes offset) (by simp [trunks])
  unfold bufferSend
  split
  · rename_i failed
    rcases serves.1 failed with again | intr
    · rw [again]
      exact ⟨kept_flags valid sized true conn.closeWait, fun _ => rfl, rfl⟩
    · rw [intr]
      exact ⟨Kept.refl valid sized, nofun, rfl⟩
  · rename_i n _
    simp only
    split
    · rename_i whole
      refine ⟨kept_pop valid sized trunks ?_ rfl, nofun, rfl⟩
      rw [whole, ← List.length_drop, List.take_length]
      rfl
    · refine ⟨kept_set valid sized trunks ?_ rfl ?_ rfl rfl rfl, nofun, rfl⟩
      · change offset + min n (bytes.length - offset) ≤ bytes.length
        omega
      · change (bytes.drop offset).take _ ++ bytes.drop _ = bytes.drop offset
        rw [← List.drop_drop, List.take_append_drop]

theorem accept_nil (conn : Connection) : conn.accept [] = conn := by
  simp [accept]

theorem kept_onSendfile {file : Bytes} {offset length : Nat} {rest : List Trunk}
    (valid : conn.Valid) (sized : conn.Sized)
    (trunks : conn.trunks = .sendfile file offset length :: rest) {result : SendResult}
    (serves : Serves (.sendfile file offset length) result) :
    Kept conn (conn.onSendfile file offset length result).1 ∧
      ((conn.onSendfile file offset length result).2 = false →
        (conn.onSendfile file offset length result).1.closeWait = true) := by
  obtain ⟨within, inFile⟩ : offset ≤ length ∧ length ≤ file.length :=
    valid (.sendfile file offset length) (by simp [trunks])
  obtain ⟨ret, isRet⟩ : ∃ ret, ret = min (result.accepted.getD 0)
      (min sendfileChunkSize (length - offset)) := ⟨_, rfl⟩
  have small : ret ≤ length - offset := by omega
  have ranges : (file.drop offset).take ret ++ (file.take length).drop (offset + ret) =
      (file.take length).drop offset := by
    have front : (file.drop offset).take ret = ((file.take length).drop offset).take ret := by
      rw [List.drop_take, List.take_take, Nat.min_eq_left small]
    rw [front, ← List.drop_drop, List.take_append_drop]
  have moved : Kept conn ((conn.accept ((file.drop offset).take ret)).setHead
      (.sendfile file (offset + ret) length)) :=
    kept_set valid sized trunks ⟨by omega, inFile⟩ rfl ranges rfl rfl rfl
  have head := @trunks_setHead (conn.accept ((file.drop offset).take ret)) _ _ trunks
    (.sendfile file (offset + ret) length)
  -- the end of the range
  have popped : length ≤ offset + ret → Kept conn ((conn.accept ((file.drop offset).take
      ret)).setHead (.sendfile file (offset + ret) length)).popTrunk := by
    intro finished
    have nothing : [] = (Trunk.sendfile file (offset + ret) length).rest := by
      simp only [Trunk.rest]
      rw [List.drop_eq_nil_of_le]
      rw [List.length_take]
      omega
    have pop := kept_pop moved.valid moved.sized head nothing rfl
    rw [accept_nil] at pop
    exact moved.trans pop
  have finish : Kept conn (if length ≤ offset + ret then
      ((conn.accept ((file.drop offset).take ret)).setHead
        (.sendfile file (offset + ret) length)).popTrunk
      else (conn.accept ((file.drop offset).take ret)).setHead
        (.sendfile file (offset + ret) length)) := by
    split
    · exact popped ‹_›
    · exact moved
  unfold onSendfile
  simp only [← isRet]
  split
  · rename_i zero
    split
    · rename_i kind
      refine ⟨popped ?_, nofun⟩
      rcases serves.2 rfl with some_byte | again
      · have := sendfileChunkSize
        simp only [sendfileChunkSize] at isRet
        omega
      · rw [again] at kind
        cases kind
    · exact ⟨moved.trans (kept_flags moved.valid moved.sized _ true), fun _ => rfl⟩
    · exact ⟨finish, nofun⟩
  · exact ⟨finish, nofun⟩

end Connection

open Connection

/-- How the loop ends. A connection is closed for the close at the head, or after an error for
good, which a chunk of data has only met before. -/
structure Drained.Kept (conn : Connection) (drained : Drained) : Prop where
  kept : conn.Kept drained.conn
  empty : ∀ conn', drained = .empty conn' → conn'.trunks = []
  waits : ∀ conn', drained = .waits conn' → conn'.trunks ≠ []
  unfinished : ∀ conn', drained = .unfinished conn' → conn'.trunks ≠ []
  close : ∀ conn', drained = .close conn' →
    (∃ rest, conn'.trunks = .close :: rest) ∨ conn'.closeWait = true
  closeWait : (∀ trunk ∈ conn.trunks, trunk.isFile = false) →
    drained.conn.closeWait = conn.closeWait

theorem kept_sendTrunk {conn : Connection} {trunk : Trunk} {rest : List Trunk}
    (valid : conn.Valid) (sized : conn.Sized) (trunks : conn.trunks = trunk :: rest)
    {result : SendResult} (serves : Serves trunk result) :
    Connection.Kept conn (conn.sendTrunk result trunk).1 ∧
      ((conn.sendTrunk result trunk).2 = false → (conn.sendTrunk result trunk).1.closeWait = false →
          (conn.sendTrunk result trunk).1.trunks ≠ []) ∧
      (trunk.isFile = false → (conn.sendTrunk result trunk).1.closeWait = conn.closeWait) := by
  cases trunk with
  | data bytes offset =>
    obtain ⟨kept, failed, closeWait⟩ := kept_bufferSend valid sized trunks serves
    refine ⟨kept, fun notOk _ => ?_, fun _ => closeWait⟩
    simp only [sendTrunk]
    rw [failed notOk]
    change conn.trunks ≠ []
    simp [trunks]
  | sendfile file offset length =>
    obtain ⟨kept, failed⟩ := kept_onSendfile valid sized trunks serves
    refine ⟨kept, fun notOk open_ => ?_, nofun⟩
    exact absurd (failed notOk) (by simpa [sendTrunk] using open_)
  | close => exact ⟨Connection.Kept.refl valid sized, nofun, fun _ => rfl⟩

theorem Connection.Kept.serves {conn conn' : Connection} (kept : conn.Kept conn')
    {results : List SendResult} (some_trunk : conn.trunks ≠ [])
    (serves : ∀ trunk ∈ conn.trunks, ∀ result ∈ results, Serves trunk result) :
    ∀ trunk ∈ conn'.trunks, ∀ result ∈ results, Serves trunk result := by
  intro trunk mem result used
  obtain ⟨head, rest, whole⟩ := List.exists_cons_of_ne_nil some_trunk
  refine ⟨(serves head (by simp [whole]) result used).1, fun file => ?_⟩
  obtain ⟨old, oldMem, oldFile⟩ := kept.files trunk mem file
  exact (serves old oldMem result used).2 oldFile

theorem Drained.Kept.after {conn conn' : Connection} {drained : Drained}
    (first : Connection.Kept conn conn')
    (flag : (∀ trunk ∈ conn.trunks, trunk.isFile = false) → conn'.closeWait = conn.closeWait)
    (second : drained.Kept conn') : drained.Kept conn where
  kept := first.trans second.kept
  empty := second.empty
  waits := second.waits
  unfinished := second.unfinished
  close := second.close
  closeWait noFile := by
    refine (second.closeWait fun trunk mem => ?_).trans (flag noFile)
    by_contra file
    obtain ⟨old, oldMem, oldFile⟩ := first.files trunk mem (by simpa using file)
    rw [noFile old oldMem] at oldFile
    cases oldFile

theorem drain_kept (conn : Connection) (results : List SendResult) (valid : conn.Valid)
    (sized : conn.Sized) (serves : ∀ trunk ∈ conn.trunks, ∀ result ∈ results, Serves trunk result) :
    (drain conn results).Kept conn := by
  fun_induction drain conn results with
  | case1 conn results nothing =>
    exact ⟨Connection.Kept.refl valid sized, by rintro _ ⟨⟩; exact nothing, nofun, nofun, nofun,
      fun _ => rfl⟩
  | case2 conn results rest atClose =>
    exact ⟨Connection.Kept.refl valid sized, nofun, nofun, nofun,
      by rintro _ ⟨⟩; exact .inl ⟨rest, atClose⟩, fun _ => rfl⟩
  | case3 conn results trunk rest _ trunks sent ih =>
    have popped : Connection.Kept conn conn.popTrunk := by
      have nothing : [] = trunk.rest := by
        cases trunk with
        | data bytes offset =>
          have all : bytes.length - offset = 0 := by simpa [Trunk.sent] using sent
          exact (List.drop_eq_nil_of_le (by omega)).symm
        | sendfile file offset length => cases sent
        | close => cases sent
      have open_ : trunk.isClose = false := by
        cases trunk with
        | data bytes offset => rfl
        | sendfile file offset length => rfl
        | close => cases sent
      have pop := kept_pop valid sized trunks nothing open_
      rwa [accept_nil] at pop
    exact (ih popped.valid popped.sized
      (popped.serves (by simp [trunks]) serves)).after popped fun _ => rfl
  | case4 conn trunk rest _ trunks =>
    exact ⟨Connection.Kept.refl valid sized, nofun, nofun,
      by rintro _ ⟨⟩; simp [trunks], nofun, fun _ => rfl⟩
  | case5 conn trunk rest _ trunks _ result results sent _ ih =>
    obtain ⟨kept, -, flag⟩ := @kept_sendTrunk conn trunk rest valid sized trunks result
      (serves trunk (by simp [trunks]) result (.head _))
    exact (ih kept.valid kept.sized (kept.serves (by simp [trunks]) fun trunk mem result used =>
      serves trunk mem result (.tail _ used))).after kept
        fun noFile => flag (noFile trunk (by simp [trunks]))
  | case6 conn trunk rest _ trunks _ result results sent _ lost =>
    obtain ⟨kept, -, flag⟩ := @kept_sendTrunk conn trunk rest valid sized trunks result
      (serves trunk (by simp [trunks]) result (.head _))
    exact ⟨kept, nofun, nofun, nofun, by rintro _ ⟨⟩; exact .inr lost,
      fun noFile => flag (noFile trunk (by simp [trunks]))⟩
  | case7 conn trunk rest _ trunks _ result results sent notOk open_ _ =>
    obtain ⟨kept, stays, flag⟩ := @kept_sendTrunk conn trunk rest valid sized trunks result
      (serves trunk (by simp [trunks]) result (.head _))
    exact ⟨kept, nofun,
      by rintro _ ⟨⟩; exact stays (by simpa using notOk) (by simpa using open_), nofun, nofun,
      fun noFile => flag (noFile trunk (by simp [trunks]))⟩
  | case8 conn trunk rest _ trunks _ result results sent _ _ _ ih =>
    obtain ⟨kept, -, flag⟩ := @kept_sendTrunk conn trunk rest valid sized trunks result
      (serves trunk (by simp [trunks]) result (.head _))
    exact (ih kept.valid kept.sized (kept.serves (by simp [trunks]) fun trunk mem result used =>
      serves trunk mem result (.tail _ used))).after kept
        fun noFile => flag (noFile trunk (by simp [trunks]))

end PhpExts.Swoole.OutBuffer
