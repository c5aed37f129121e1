import PhpExts.Swoole.OutBuffer
import Mathlib

/-!
# Reactor writes

`swReactor_write` and `swReactor_onWrite` on one descriptor of an epoll reactor. A write goes to
the kernel as far as it takes it, and the rest into the output buffer, which write events drain.

What the kernel has accepted and what the buffer holds is always what the calls have asked for,
in order, and the write event is registered exactly while the buffer holds a chunk. The field
`length` agrees with the chunks exactly as long as these have less than 2^32 bytes, which
nothing sees to unless `socket_dontwait` is set (`written_iff`).
-/

namespace PhpExts.Swoole.ReactorWrite

open PhpExts.Swoole.OutBuffer

/-- `SW_EVENT_READ` and `SW_EVENT_WRITE`. -/
structure Events where
  read : Bool
  write : Bool
  deriving DecidableEq

structure Socket where
  conn : Connection
  bufferSize : Nat
  sslSend : Bool
  events : Events
  interest : Option Events

/-- The fields of `SwooleG`. -/
structure Config where
  socketBufferSize : Nat
  socketDontwait : Bool

namespace Socket

/-- `swReactorEpoll_add`, which takes the events back where epoll has the descriptor. -/
def add (s : Socket) (events : Events) : Socket :=
  match s.interest with
  | none => { s with
      events := events
      interest := some events }
  | some _ => { s with events := ⟨false, false⟩ }

/-- `swReactorEpoll_set`. -/
def set (s : Socket) (events : Events) : Socket :=
  match s.interest with
  | none => s
  | some _ => { s with
      events := events
      interest := some events }

/-- `swReactorEpoll_del`. -/
def del (s : Socket) : Socket :=
  match s.interest with
  | none => s
  | some _ => { s with
      events := ⟨false, false⟩
      interest := none }

/-- `swReactor_close`. -/
def close (s : Socket) : Socket :=
  { conn := ⟨none, false, false, s.conn.accepted⟩
    bufferSize := 0
    sslSend := false
    events := ⟨false, false⟩
    interest := none }

def limit (config : Config) (s : Socket) : Nat :=
  if s.bufferSize = 0 then config.socketBufferSize else s.bufferSize

/-- The label `do_buffer`. -/
def doBuffer (s : Socket) : Socket :=
  let s := { s with
    conn := { s.conn with outBuffer := some (s.conn.outBuffer.getD .new) }
    events := { s.events with write := true } }
  if s.events.read then s.set s.events else s.add ⟨false, true⟩

/-- The label `append_buffer`. Without `socket_dontwait` a full buffer only costs time. -/
def appendBuffer (config : Config) (s : Socket) (bytes : Bytes) : Socket × Int :=
  match s.conn.outBuffer with
  | none => (s, -1)
  | some buffer =>
    if s.bufferSize < buffer.length ∧ config.socketDontwait then (s, -1)
    else ({ s with conn := { s.conn with outBuffer := some (buffer.append bytes) } }, 0)

end Socket

/-- Where the label `do_send` leads. -/
inductive Sent where
  | sent (ret : Nat)
  | buffer
  | failed
  | unfinished

/-- The label `do_send`, again after every `EINTR`. -/
def doSend (n : Nat) : List SendResult → Sent
  | [] => .unfinished
  | result :: results =>
    let ret := min (result.accepted.getD 0) n
    if 0 < ret then .sent ret
    else
      match result.errno with
      | .again => .buffer
      | .intr => doSend n results
      | _ => .failed

inductive Called where
  | returned (s : Socket) (ret : Int)
  | unfinished (s : Socket)

/-- The result of `append_buffer` as that of the call. -/
def Called.ofPair (result : Socket × Int) : Called := .returned result.1 result.2

namespace Socket

/-- `swReactor_write`. -/
def write (config : Config) (s : Socket) (bytes : Bytes) (results : List SendResult) : Called :=
  let s := { s with bufferSize := s.limit config }
  if s.bufferSize < bytes.length then .returned s (-1)
  else if s.conn.trunks = [] then
    if s.sslSend then .ofPair (s.doBuffer.appendBuffer config bytes)
    else
      match doSend bytes.length results with
      | .sent ret =>
        let s := { s with conn := s.conn.accept (bytes.take ret) }
        if ret = bytes.length then .returned s ret
        else .ofPair (s.doBuffer.appendBuffer config (bytes.drop ret))
      | .buffer => .ofPair (s.doBuffer.appendBuffer config bytes)
      | .failed => .returned s (-1)
      | .unfinished => .unfinished s
  else .ofPair (s.appendBuffer config bytes)

/-- The end of `swReactor_onWrite`: the write event is not watched any more. -/
def unwatch (s : Socket) : Socket :=
  if s.events.read then
    let s := { s with events := { s.events with write := false } }
    s.set s.events
  else s.del

def onWrite (s : Socket) (results : List SendResult) : Called :=
  match drain s.conn results with
  | .empty conn => .returned { s with conn := conn }.unwatch 0
  | .waits conn => .returned { s with conn := conn } 0
  | .close conn => .returned { s with conn := conn }.close 0
  | .unfinished conn => .unfinished { s with conn := conn }

end Socket

/-- The buffer of a call, whose length is an `int`. -/
structure Data where
  bytes : Bytes
  fits : bytes.length < 2 ^ 31

/-- The results of the calls of `send`: any number of bytes, or `EAGAIN` or `EINTR`. -/
structure Results where
  results : List SendResult
  transient : ∀ result ∈ results, result.accepted = none →
    result.errno = .again ∨ result.errno = .intr

inductive Event where
  | write (data : Data) (results : Results)
  | onWrite (results : Results)

def Event.request : Event → Int → Bytes
  | .write data _, ret => if 0 ≤ ret then data.bytes else []
  | .onWrite _, _ => []

def Socket.step (config : Config) (s : Socket) : Event → Called
  | .write data results => s.write config data.bytes results.results
  | .onWrite results => s.onWrite results.results

def Socket.watchesWrite (s : Socket) : Bool := (s.interest.map Events.write).getD false

structure Good (s : Socket) (requested : Bytes) : Prop where
  stream : s.conn.accepted ++ s.conn.trunks.flatMap Trunk.rest = requested
  length : ∀ buffer, s.conn.outBuffer = some buffer → buffer.length = buffer.total
  registered : s.watchesWrite = true ↔ s.conn.trunks ≠ []

def Right (config : Config) (s : Socket) (requested : Bytes) : List Event → Prop
  | [] => Good s requested
  | event :: events => Good s requested ∧
    match s.step config event with
    | .returned s' ret => Right config s' (requested ++ event.request ret) events
    | .unfinished s' => Good s' requested

/-- A write is refused for its length, or by `socket_dontwait` for that of the buffer. -/
def Refused (config : Config) (s : Socket) (bytes : Bytes) : Prop :=
  s.limit config < bytes.length ∨ config.socketDontwait = true ∧
    ∃ buffer, s.conn.outBuffer = some buffer ∧ s.limit config < buffer.length

def Allowed (config : Config) (s : Socket) : Event → Prop
  | .write data _ => s.conn.trunks = [] ∨ Refused config s data.bytes ∨
      s.conn.total + data.bytes.length < 2 ^ 32
  | .onWrite _ => True

def AllAllowed (config : Config) (s : Socket) : List Event → Prop
  | [] => True
  | event :: events => Allowed config s event ∧
    match s.step config event with
    | .returned s' _ => AllAllowed config s' events
    | .unfinished _ => True

def Socket.fresh (bufferSize : Nat) (sslSend reads : Bool) : Socket :=
  { conn := ⟨none, false, false, []⟩
    bufferSize := bufferSize
    sslSend := sslSend
    events := ⟨reads, false⟩
    interest := if reads then some ⟨true, false⟩ else none }

def Socket.Watched (s : Socket) : Prop :=
  s.interest = (if s.events.read || s.events.write then some s.events else none) ∧
    (s.events.write = true ↔ s.conn.trunks ≠ [])

/-- All but the width of the field `length`. -/
structure Inv (s : Socket) (requested : Bytes) : Prop where
  stream : s.conn.stream = requested
  valid : s.conn.Valid
  sized : s.conn.Sized
  noFile : ∀ trunk ∈ s.conn.trunks, trunk.isFile = false
  noClose : Trunk.close ∉ s.conn.trunks
  closeWait : s.conn.closeWait = false
  watched : s.Watched

theorem Socket.Watched.watchesWrite {s : Socket} (watched : s.Watched) :
    s.watchesWrite = true ↔ s.conn.trunks ≠ [] := by
  rw [← watched.2, Socket.watchesWrite, watched.1]
  cases write : s.events.write with
  | false => cases s.events.read <;> simp [write]
  | true => simp [write]

theorem Inv.good_iff {s : Socket} {requested : Bytes} (inv : Inv s requested) :
    Good s requested ↔ s.conn.total < 2 ^ 32 := by
  have total : ∀ buffer, s.conn.outBuffer = some buffer → buffer.total = s.conn.total := by
    intro buffer here
    simp [Buffer.total, Connection.total, Connection.trunks, here]
  constructor
  · intro good
    cases here : s.conn.outBuffer with
    | none => simp [Connection.total, Connection.trunks, here]
    | some buffer =>
      rw [← total buffer here, ← good.length buffer here, inv.sized buffer here]
      exact Nat.mod_lt _ (by decide)
  · intro small
    refine ⟨inv.stream, fun buffer here => ?_, inv.watched.watchesWrite⟩
    rw [inv.sized buffer here, total buffer here, Nat.mod_eq_of_lt small]

theorem Inv.fresh (bufferSize : Nat) (sslSend reads : Bool) :
    Inv (.fresh bufferSize sslSend reads) [] where
  stream := rfl
  valid trunk mem := nomatch mem
  sized buffer here := nomatch here
  noFile trunk mem := nomatch mem
  noClose mem := nomatch mem
  closeWait := rfl
  watched := by cases reads <;> simp [Socket.fresh, Socket.Watched, Connection.trunks]

def Called.socket : Called → Socket
  | returned s _ | unfinished s => s

def Called.requested (requested : Bytes) (event : Event) : Called → Bytes
  | returned _ ret => requested ++ event.request ret
  | unfinished _ => requested

section

variable {config : Config} {s : Socket} {requested : Bytes}

theorem Inv.append (inv : Inv s requested) {buffer : Buffer} (here : s.conn.outBuffer = some buffer)
    (bytes : Bytes) {s' : Socket}
    (conn : s'.conn = { s.conn with outBuffer := some (buffer.append bytes) })
    (interest : s'.interest = some s'.events) (write : s'.events.write = true) :
    Inv s' (requested ++ bytes) ∧ s'.conn.total = s.conn.total + bytes.length := by
  have before : s.conn.trunks = buffer.trunks := by simp [Connection.trunks, here]
  have trunks : s'.conn.trunks = s.conn.trunks ++ [.data bytes 0] := by
    rw [conn, before]
    rfl
  refine ⟨⟨?_, ?_, ?_, ?_, ?_, ?_, ?_⟩, ?_⟩
  · have stream := inv.stream
    rw [Connection.stream] at stream ⊢
    rw [trunks, List.flatMap_append, ← List.append_assoc, conn, stream]
    simp [Trunk.rest]
  · rw [Connection.Valid, trunks]
    exact List.forall_mem_append.mpr ⟨inv.valid, List.forall_mem_singleton.mpr (Nat.zero_le _)⟩
  · intro other same
    rw [conn] at same
    cases same
    exact (inv.sized buffer here).append bytes
  · rw [trunks]
    exact List.forall_mem_append.mpr ⟨inv.noFile, List.forall_mem_singleton.mpr rfl⟩
  · rw [trunks, List.mem_append, not_or]
    exact ⟨inv.noClose, by simp⟩
  · rw [conn]
    exact inv.closeWait
  · refine ⟨?_, ?_⟩
    · rw [interest, write, Bool.or_true, if_pos rfl]
    · rw [trunks]
      simp [write]
  · rw [Connection.total, Connection.total, trunks]
    simp [Trunk.length]

theorem Inv.accept (inv : Inv s requested) (nothing : s.conn.trunks = []) (bytes : Bytes) :
    Inv { s with conn := s.conn.accept bytes } (requested ++ bytes) := by
  refine ⟨?_, inv.valid, inv.sized, inv.noFile, inv.noClose, inv.closeWait, inv.watched⟩
  rw [← inv.stream]
  exact Connection.stream_accept nothing bytes

theorem Inv.buffer (inv : Inv s requested) (nothing : s.conn.trunks = []) (bytes : Bytes) :
    ∃ s', s.doBuffer.appendBuffer config bytes = (s', 0) ∧ Inv s' (requested ++ bytes) ∧
      s'.conn.total = bytes.length := by
  obtain ⟨buffer, isBuffer⟩ : ∃ buffer, s.conn.outBuffer.getD .new = buffer := ⟨_, rfl⟩
  have trunks : buffer.trunks = [] := by
    rw [← isBuffer]
    cases here : s.conn.outBuffer with
    | none => rfl
    | some old => simpa [Connection.trunks, here] using nothing
  have length : buffer.length = 0 := by
    rw [← isBuffer]
    cases here : s.conn.outBuffer with
    | none => rfl
    | some old =>
      have empty : old.trunks = [] := by simpa [Connection.trunks, here] using nothing
      have sized := inv.sized old here
      simpa [Buffer.Sized, Buffer.total, empty] using sized
  have notWriting : s.events.write = false := by
    simpa [nothing] using inv.watched.2
  have interest := inv.watched.1
  -- the buffer is there, and nothing else of the connection has changed
  obtain ⟨conn, watched, write⟩ : s.doBuffer.conn = { s.conn with outBuffer := some buffer } ∧
      s.doBuffer.interest = some s.doBuffer.events ∧ s.doBuffer.events.write = true := by
    cases read : s.events.read with
    | true =>
      rw [read, Bool.true_or, if_pos rfl] at interest
      simp [Socket.doBuffer, read, Socket.set, interest, isBuffer]
    | false =>
      rw [read, notWriting] at interest
      simp [Socket.doBuffer, read, Socket.add, interest, isBuffer]
  have there : s.doBuffer.conn.outBuffer = some buffer := by rw [conn]
  have small : ¬ (s.doBuffer.bufferSize < buffer.length ∧ config.socketDontwait = true) := by
    rw [length]
    exact fun both => absurd both.1 (Nat.not_lt_zero _)
  have inv' : Inv { s with conn := { s.conn with outBuffer := some buffer } } requested := by
    have same : ({ s.conn with outBuffer := some buffer } : Connection).trunks = s.conn.trunks := by
      rw [nothing]
      exact trunks
    refine ⟨?_, ?_, ?_, ?_, ?_, inv.closeWait, inv.watched.1, ?_⟩
    · rw [← inv.stream, Connection.stream, Connection.stream, same]
    · intro trunk mem
      rw [same] at mem
      exact inv.valid trunk mem
    · intro other known
      cases known
      rw [Buffer.Sized, length, Buffer.total, trunks]
      rfl
    · intro trunk mem
      rw [same] at mem
      exact inv.noFile trunk mem
    · rw [same]
      exact inv.noClose
    · rw [same]
      exact inv.watched.2
  obtain ⟨invAppended, total⟩ := @Inv.append _ _ inv' buffer rfl bytes
    { s.doBuffer with conn := { s.doBuffer.conn with outBuffer := some (buffer.append bytes) } }
    (by simp [conn]) watched write
  refine ⟨_, ?_, invAppended, ?_⟩
  · rw [Socket.appendBuffer, there]
    simp only
    rw [if_neg small]
  · rw [total]
    simp [Connection.total, Connection.trunks, trunks]

theorem Inv.setLimit (inv : Inv s requested) (limit : Nat) :
    Inv { s with bufferSize := limit } requested :=
  ⟨inv.stream, inv.valid, inv.sized, inv.noFile, inv.noClose, inv.closeWait, inv.watched⟩

theorem write_empty (inv : Inv s requested) (nothing : s.conn.trunks = []) (data : Data)
    (results : Results) : Inv (s.write config data.bytes results.results).socket
        ((s.write config data.bytes results.results).requested requested (.write data results)) ∧
      (s.write config data.bytes results.results).socket.conn.total < 2 ^ 32 := by
  have fits := data.fits
  have zero : s.conn.total = 0 := by simp [Connection.total, nothing]
  have inv₀ := inv.setLimit (s.limit config)
  unfold Socket.write
  simp only
  split
  · refine ⟨?_, ?_⟩
    · simpa [Called.socket, Called.requested, Event.request] using inv₀
    · change s.conn.total < 2 ^ 32
      omega
  -- the whole of the data goes into the buffer
  have whole : Inv (Called.ofPair (({ s with bufferSize := s.limit config } :
      Socket).doBuffer.appendBuffer config data.bytes)).socket
        ((Called.ofPair (({ s with bufferSize := s.limit config } :
          Socket).doBuffer.appendBuffer config data.bytes)).requested requested
            (.write data results)) ∧
      (Called.ofPair (({ s with bufferSize := s.limit config } :
        Socket).doBuffer.appendBuffer config data.bytes)).socket.conn.total < 2 ^ 32 := by
    obtain ⟨s', appended, inv', total⟩ := @Inv.buffer config _ _ inv₀ nothing data.bytes
    rw [appended]
    refine ⟨by simpa [Called.ofPair, Called.socket, Called.requested, Event.request] using inv', ?_⟩
    change s'.conn.total < 2 ^ 32
    omega
  split
  · exact whole
  · split
    · rename_i ret _
      have accepted := inv₀.accept nothing (data.bytes.take ret)
      split
      · rename_i all
        refine ⟨?_, ?_⟩
        · rw [all, List.take_length] at accepted
          simpa [Called.socket, Called.requested, Event.request, all] using accepted
        · change s.conn.total < 2 ^ 32
          omega
      · obtain ⟨s', appended, inv', total⟩ := @Inv.buffer config _ _ accepted nothing
          (data.bytes.drop ret)
        rw [appended]
        rw [List.append_assoc, List.take_append_drop] at inv'
        refine ⟨by simpa [Called.ofPair, Called.socket, Called.requested, Event.request] using inv',
          ?_⟩
        change s'.conn.total < 2 ^ 32
        rw [total, List.length_drop]
        omega
    · exact whole
    · refine ⟨?_, ?_⟩
      · simpa [Called.socket, Called.requested, Event.request] using inv₀
      · change s.conn.total < 2 ^ 32
        omega
    · refine ⟨inv₀, ?_⟩
      change s.conn.total < 2 ^ 32
      omega

theorem write_queued (inv : Inv s requested) (some_trunk : s.conn.trunks ≠ []) (data : Data)
    (results : Results) : Inv (s.write config data.bytes results.results).socket
        ((s.write config data.bytes results.results).requested requested (.write data results)) ∧
      (Refused config s data.bytes →
        (s.write config data.bytes results.results).socket.conn.total = s.conn.total) ∧
      (¬ Refused config s data.bytes →
        (s.write config data.bytes results.results).socket.conn.total =
          s.conn.total + data.bytes.length) ∧
      ∃ s' ret, s.write config data.bytes results.results = .returned s' ret := by
  have inv₀ := inv.setLimit (s.limit config)
  obtain ⟨buffer, here⟩ : ∃ buffer, s.conn.outBuffer = some buffer := by
    cases known : s.conn.outBuffer with
    | none => exact absurd (by simp [Connection.trunks, known]) some_trunk
    | some buffer => exact ⟨buffer, rfl⟩
  unfold Socket.write
  simp only
  split
  · rename_i long
    refine ⟨?_, fun _ => rfl, fun accepted => absurd (.inl long) accepted, _, _, rfl⟩
    simpa [Called.socket, Called.requested, Event.request] using inv₀
  · rename_i short
    simp only [Socket.appendBuffer, here]
    split
    · rename_i full
      refine ⟨?_, fun _ => rfl, fun accepted => absurd ?_ accepted, _, _, rfl⟩
      · simpa [Called.ofPair, Called.socket, Called.requested, Event.request] using inv₀
      · exact .inr ⟨full.2, buffer, here, full.1⟩
    · rename_i room
      have write : s.events.write = true := inv.watched.2.mpr some_trunk
      have interest : s.interest = some s.events := by
        rw [inv.watched.1, write, Bool.or_true, if_pos rfl]
      obtain ⟨inv', total⟩ := @Inv.append _ _ inv₀ buffer here data.bytes
        { s with
          bufferSize := s.limit config
          conn := { s.conn with outBuffer := some (buffer.append data.bytes) } }
        rfl interest write
      refine ⟨?_, ?_, fun _ => total, _, _, rfl⟩
      · simpa [Called.ofPair, Called.socket, Called.requested, Event.request] using inv'
      · rintro (long | ⟨dontwait, other, known, full⟩)
        · exact absurd long short
        · rw [here] at known
          cases known
          exact absurd ⟨full, dontwait⟩ room

theorem drain_nil {conn : Connection} (nothing : conn.trunks = []) (results : List SendResult) :
    drain conn results = .empty conn := by
  unfold drain
  split
  · rfl
  · rename_i here
    rw [nothing] at here
    cases here
  · rename_i here
    rw [nothing] at here
    cases here

theorem onWrite_spec (inv : Inv s requested) (results : Results) :
    Inv (s.onWrite results.results).socket
        ((s.onWrite results.results).requested requested (.onWrite results)) ∧
      (s.onWrite results.results).socket.conn.total ≤ s.conn.total := by
  have kept := drain_kept s.conn results.results inv.valid inv.sized fun trunk mem result used =>
    ⟨results.transient result used, fun file => by
      rw [inv.noFile trunk mem] at file
      cases file⟩
  have noFile : ∀ trunk ∈ (drain s.conn results.results).conn.trunks, trunk.isFile = false := by
    intro trunk mem
    by_contra file
    obtain ⟨old, oldMem, oldFile⟩ := kept.kept.files trunk mem (by simpa using file)
    rw [inv.noFile old oldMem] at oldFile
    cases oldFile
  have noClose : Trunk.close ∉ (drain s.conn results.results).conn.trunks := fun mem =>
    inv.noClose (kept.kept.closes.mp mem)
  have closeWait : (drain s.conn results.results).conn.closeWait = false :=
    (kept.closeWait inv.noFile).trans inv.closeWait
  -- the connection behind the loop, with events that agree with its buffer
  have behind : ∀ s' : Socket, s'.conn = (drain s.conn results.results).conn → s'.Watched →
      Inv s' requested := by
    intro s' conn watched
    refine ⟨?_, ?_, ?_, ?_, ?_, ?_, watched⟩
    · rw [conn, kept.kept.stream, inv.stream]
    · rw [conn]
      exact kept.kept.valid
    · rw [conn]
      exact kept.kept.sized
    · rw [conn]
      exact noFile
    · rw [conn]
      exact noClose
    · rw [conn]
      exact closeWait
  -- chunks that are left were there before, so the event is watched
  have stays : (drain s.conn results.results).conn.trunks ≠ [] →
      ({ s with conn := (drain s.conn results.results).conn } : Socket).Watched := by
    intro left
    refine ⟨inv.watched.1, ?_⟩
    have before : s.conn.trunks ≠ [] := by
      intro nothing
      rw [drain_nil nothing] at left
      exact left nothing
    exact iff_of_true (inv.watched.2.mpr before) left
  have total := kept.kept.total
  unfold Socket.onWrite
  cases drained : drain s.conn results.results with
  | empty conn =>
    rw [drained] at behind total
    have nothing : conn.trunks = [] := kept.empty conn drained
    have interest := inv.watched.1
    simp only [Called.socket, Called.requested, Event.request, List.append_nil]
    obtain ⟨same, watched⟩ : ({ s with conn := conn } : Socket).unwatch.conn = conn ∧
        ({ s with conn := conn } : Socket).unwatch.Watched := by
      cases read : s.events.read with
      | true =>
        rw [read, Bool.true_or, if_pos rfl] at interest
        simp [Socket.unwatch, read, Socket.set, interest, Socket.Watched, nothing]
      | false =>
        cases write : s.events.write with
        | true =>
          rw [read, write, Bool.or_true, if_pos rfl] at interest
          simp [Socket.unwatch, read, Socket.del, interest, Socket.Watched, nothing]
        | false =>
          rw [read, write] at interest
          simp [Socket.unwatch, read, write, Socket.del, interest, Socket.Watched, nothing]
    refine ⟨behind _ same watched, ?_⟩
    rw [same]
    exact total
  | waits conn =>
    rw [drained] at behind stays total
    simp only [Called.socket, Called.requested, Event.request, List.append_nil]
    exact ⟨behind _ rfl (stays (kept.waits conn drained)), total⟩
  | close conn =>
    rw [drained] at noClose closeWait
    rcases kept.close conn drained with ⟨rest, atClose⟩ | lost
    · exact absurd (by rw [Drained.conn, atClose]; simp) noClose
    · rw [Drained.conn, lost] at closeWait
      cases closeWait
  | unfinished conn =>
    rw [drained] at behind stays total
    exact ⟨behind _ rfl (stays (kept.unfinished conn drained)), total⟩

theorem step_spec (inv : Inv s requested) (small : s.conn.total < 2 ^ 32) (event : Event) :
    Inv (s.step config event).socket ((s.step config event).requested requested event) ∧
      (Allowed config s event ↔ (s.step config event).socket.conn.total < 2 ^ 32) := by
  cases event with
  | write data results =>
    by_cases nothing : s.conn.trunks = []
    · obtain ⟨inv', small'⟩ := @write_empty config _ _ inv nothing data results
      exact ⟨inv', iff_of_true (.inl nothing) small'⟩
    · obtain ⟨inv', refused, taken, -⟩ := @write_queued config _ _ inv nothing data results
      refine ⟨inv', ?_⟩
      by_cases refuse : Refused config s data.bytes
      · exact iff_of_true (.inr (.inl refuse)) (by
          change (s.write config data.bytes results.results).socket.conn.total < _
          rw [refused refuse]
          exact small)
      · change _ ↔ (s.write config data.bytes results.results).socket.conn.total < _
        rw [taken refuse]
        constructor
        · rintro (empty | refused | fits)
          · exact absurd empty nothing
          · exact absurd refused refuse
          · exact fits
        · exact fun fits => .inr (.inr fits)
  | onWrite results =>
    obtain ⟨inv', less⟩ := onWrite_spec inv results
    exact ⟨inv', iff_of_true trivial (Nat.lt_of_le_of_lt less small)⟩

end

theorem Right.good {config : Config} {s : Socket} {requested : Bytes} {events : List Event}
    (right : Right config s requested events) : Good s requested := by
  cases events with
  | nil => exact right
  | cons event events => exact right.1

theorem right_iff_of_inv {config : Config} {s : Socket} {requested : Bytes}
    (inv : Inv s requested) (small : s.conn.total < 2 ^ 32) (events : List Event) :
    Right config s requested events ↔ AllAllowed config s events := by
  induction events generalizing s requested with
  | nil => exact iff_of_true (inv.good_iff.mpr small) trivial
  | cons event events ih =>
    obtain ⟨inv', allowed⟩ := @step_spec config _ _ inv small event
    rw [Right, AllAllowed, and_iff_right (inv.good_iff.mpr small)]
    cases stepped : s.step config event with
    | returned s' ret =>
      rw [stepped] at inv' allowed
      by_cases fits : Allowed config s event
      · rw [and_iff_right fits]
        exact ih inv' (allowed.mp fits)
      · refine iff_of_false (fun right => fits (allowed.mpr ?_)) fun both => fits both.1
        exact inv'.good_iff.mp right.good
    | unfinished s' =>
      rw [stepped] at inv' allowed
      rw [and_true, allowed]
      exact inv'.good_iff

/-- In every run of writes and write events on a fresh descriptor the kernel has a prefix of the
requests, the buffer the rest and its right length, and the write event is registered while the
buffer is not empty, exactly if every write is allowed. -/
theorem written_iff (config : Config) (bufferSize : Nat) (sslSend reads : Bool)
    (events : List Event) : Right config (.fresh bufferSize sslSend reads) [] events ↔
      AllAllowed config (.fresh bufferSize sslSend reads) events :=
  right_iff_of_inv (Inv.fresh bufferSize sslSend reads)
    (by simp [Socket.fresh, Connection.total, Connection.trunks]) events

theorem not_written_of_length {first last : Data} (long : first.bytes.length = 2 ^ 31 - 1)
    (two : last.bytes.length = 2) : ¬ Right ⟨0, false⟩ (.fresh (2 ^ 31 - 1) false true) []
      [.write first ⟨[⟨none, .again⟩], by simp⟩, .write first ⟨[], nofun⟩,
        .write last ⟨[], nofun⟩] := by
  intro right
  simp [Right, Socket.step, Socket.write, Socket.fresh, Socket.limit, long, two, doSend,
    Socket.doBuffer, Socket.set, Socket.appendBuffer, Connection.trunks, Called.ofPair,
    Buffer.append, Buffer.newTrunk, Buffer.new, Event.request] at right
  have length := right.2.2.2.length _ rfl
  simp [Buffer.total, Trunk.length, long, two] at length

def zeros (n : Nat) (fits : n < 2 ^ 31) : Data :=
  ⟨List.replicate n 0, by rwa [List.length_replicate]⟩

theorem not_written : ¬ Right ⟨0, false⟩ (.fresh (2 ^ 31 - 1) false true) []
      [.write (zeros (2 ^ 31 - 1) (by decide)) ⟨[⟨none, .again⟩], by simp⟩,
        .write (zeros (2 ^ 31 - 1) (by decide)) ⟨[], nofun⟩,
        .write (zeros 2 (by decide)) ⟨[], nofun⟩] :=
  not_written_of_length List.length_replicate List.length_replicate

end PhpExts.Swoole.ReactorWrite
