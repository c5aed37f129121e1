import PhpExts.Swoole.ReactorWrite
import Mathlib

/-!
# Server output

`swReactorThread_send` and `swReactorThread_onWrite` for one connection of a server: data, ranges
of files and a close go to the socket or into one output buffer, which write events drain.

The socket gets a prefix of what was asked for, a close request closes only behind everything
asked for before it, and the notifications of a full and of an empty buffer alternate. A write
event is awaited for all that is pending unless something was queued before the connect
notification, whose handling watches the connection for reading only, or part of a send was
dropped for a connection that the reactor does not watch (`output_iff`).
-/

namespace PhpExts.Swoole.ReactorThreadSend

open PhpExts.Swoole.OutBuffer PhpExts.Swoole.OutBuffer.Connection
open PhpExts.Swoole.ReactorWrite (Events Data)

/-- The fields of `swServer` and of the port. -/
structure Config where
  onBufferFull : Bool
  onBufferEmpty : Bool
  bufferHighWatermark : Nat
  bufferLowWatermark : Nat
  enableDelayReceive : Bool
  disableNotify : Bool

inductive Notification where
  | bufferFull
  | bufferEmpty
  deriving DecidableEq

/-- Why a connection was closed: for a close request behind everything before it, for one that
resets the connection, by the heartbeat, or after an error. -/
inductive Closing where
  | request
  | reset
  | force
  | error
  deriving DecidableEq

/-- The `swConnection` of a session, what epoll watches it for, and the notifications of its
buffer that went to the worker. -/
structure Session where
  conn : Connection
  closed : Option Closing
  interest : Option Events
  connectNotify : Bool
  closeNotify : Bool
  closeForce : Bool
  closeReset : Bool
  removed : Bool
  listenWait : Bool
  directSend : Bool
  overflow : Bool
  highWatermark : Bool
  bufferSize : Nat
  notified : List Notification

namespace Session

/-- `swReactorThread_close`, which clears the record. -/
def close (s : Session) (why : Closing) : Session :=
  { conn := ⟨none, false, false, s.conn.accepted⟩
    closed := some why
    interest := none
    connectNotify := false
    closeNotify := false
    closeForce := false
    closeReset := false
    removed := true
    listenWait := false
    directSend := false
    overflow := false
    highWatermark := false
    bufferSize := 0
    notified := s.notified }

def notify (s : Session) (notification : Notification) : Session :=
  { s with notified := s.notified ++ [notification] }

/-- The end of `swReactorThread_send`. Epoll does not know a connection that was removed
(`ENOENT`). -/
def listen (s : Session) : Session :=
  match s.interest with
  | none => s.close .error
  | some _ => { s with interest := some ⟨true, true⟩ }

end Session

def bufferSizeBig : Nat := 65536

def enqueue (buffer : Buffer) (bytes : Bytes) : Buffer :=
  if bytes = [] then buffer
  else enqueue (buffer.append (bytes.take bufferSizeBig)) (bytes.drop bufferSizeBig)
termination_by bytes.length
decreasing_by
  have := List.length_pos_of_ne_nil ‹_›
  simp only [bufferSizeBig, List.length_drop]
  omega

/-- Where the label `direct_send` leads: all the bytes were sent, or some and the rest is
queued. -/
inductive Direct where
  | all
  | rest (ret : Nat)
  | unfinished

/-- The label `direct_send`, again after every `EINTR`. -/
def direct (n : Nat) : List SendResult → Direct
  | [] => .unfinished
  | result :: results =>
    let ret := result.accepted.map (min · n)
    if ret = some n then .all
    else if 0 < ret.getD 0 then .rest (ret.getD 0)
    else
      match result.errno with
      | .intr => direct n results
      | _ => .rest 0

inductive Called where
  | returned (s : Session) (ret : Int)
  | unfinished (s : Session)

def Called.ofPair (result : Session × Int) : Called := .returned result.1 result.2

namespace Session

/-- The data of a send into the output buffer. -/
def queue (config : Config) (s : Session) (bytes : Bytes) : Session × Int :=
  let old := s.conn.outBuffer.getD .new
  if s.removed then ({ s with conn := { s.conn with outBuffer := some old } }, -1)
  else
    let buffer := enqueue old bytes
    let s := { s with
      overflow := s.overflow || decide (s.bufferSize ≤ old.length)
      conn := { s.conn with outBuffer := some buffer } }
    if config.onBufferFull ∧ s.highWatermark = false ∧ config.bufferHighWatermark ≤ buffer.length
    then ({ s.notify .bufferFull with highWatermark := true }.listen, 0)
    else (s.listen, 0)

/-- `swReactorThread_send` with data. -/
def send (config : Config) (s : Session) (bytes : Bytes) (results : List SendResult) : Called :=
  if s.conn.trunks = [] ∧ s.directSend then
    match direct bytes.length results with
    | .all => .returned { s with conn := s.conn.accept bytes } 0
    | .rest ret =>
      .ofPair ({ s with conn := s.conn.accept (bytes.take ret) }.queue config (bytes.drop ret))
    | .unfinished => .unfinished s
  else .ofPair (s.queue config bytes)

/-- `swReactorThread_send` with a file, and `swConnection_sendfile`, which drops a range that is
not in the file. -/
def sendfile (s : Session) (file : Bytes) (offset length : Nat) : Session :=
  let buffer := s.conn.outBuffer.getD .new
  let trunk := Trunk.sendfile file offset (if length = 0 then file.length else length + offset)
  let buffer' := if file.length < length + offset then buffer else buffer.newTrunk trunk
  { s with conn := { s.conn with outBuffer := some buffer' } }.listen

/-- `swReactorThread_send` with `SW_EVENT_CLOSE`. -/
def closeRequest (s : Session) : Session :=
  if s.closeReset ∨ s.removed then s.close .reset
  else if s.conn.trunks = [] then s.close .request
  else
    { s with
      conn := { s.conn with outBuffer := s.conn.outBuffer.map (Buffer.newTrunk · .close) } }.listen

/-- The end of `swReactorThread_onWrite`, behind the loop. -/
def settle (config : Config) (s : Session) : Session :=
  let length := (s.conn.outBuffer.getD .new).length
  let s := { s with overflow := s.overflow && decide (s.bufferSize ≤ length) }
  let s : Session :=
    if config.onBufferEmpty ∧ s.highWatermark ∧ length ≤ config.bufferLowWatermark then
      { s.notify .bufferEmpty with highWatermark := false }
    else s
  if s.removed = false ∧ s.conn.trunks = [] then
    { s with interest := s.interest.map fun _ => ⟨true, false⟩ }
  else s

/-- `swReactorThread_onWrite` of a connection without SSL. -/
def onWrite (config : Config) (s : Session) (results : List SendResult) : Called :=
  if s.connectNotify then
    if config.enableDelayReceive then
      .returned { s with
        connectNotify := false
        listenWait := true
        removed := true
        interest := none } 0
    else
      .returned { s with
        connectNotify := false
        interest := s.interest.map fun _ => ⟨true, false⟩ } 0
  else if s.closeNotify then .returned { s with closeNotify := false } 0
  else if config.disableNotify ∧ s.closeForce then .returned (s.close .force) 0
  else
    match drain s.conn results with
    | .empty conn | .waits conn => .returned ({ s with conn := conn }.settle config) 0
    | .close conn =>
      .returned ({ s with conn := conn }.close
        (if conn.trunks.head?.any Trunk.isClose then .request else .error)) 0
    | .unfinished conn => .unfinished { s with conn := conn }

end Session

/-- The results of the calls on the socket: some bytes, or `EAGAIN`. -/
structure Results where
  results : List SendResult
  serves : ∀ result ∈ results, 0 < result.accepted.getD 0 ∨
    result.accepted = none ∧ result.errno = .again

structure Range where
  file : Bytes
  offset : Nat
  length : Nat
  valid : length + offset ≤ file.length

def Range.stop (range : Range) : Nat :=
  if range.length = 0 then range.file.length else range.length + range.offset

def Range.bytes (range : Range) : Bytes := (range.file.take range.stop).drop range.offset

inductive Event where
  | send (data : Data) (results : Results)
  | sendfile (range : Range)
  | close
  | onWrite (results : Results)

def Session.step (config : Config) (s : Session) (event : Event) : Called :=
  if s.closed.isSome then .returned s (-1)
  else
    match event with
    | .send data results => s.send config data.bytes results.results
    | .sendfile range => .returned (s.sendfile range.file range.offset range.length) 0
    | .close => .returned s.closeRequest 0
    | .onWrite results => s.onWrite config results.results

structure Asked where
  requested : Bytes
  closeAt : Option Bytes

def Asked.after (asked : Asked) (s : Session) (event : Event) : Asked :=
  if s.closed.isSome then asked
  else
    match event with
    | .send data _ => { asked with requested := asked.requested ++ data.bytes }
    | .sendfile range => { asked with requested := asked.requested ++ range.bytes }
    | .close => { asked with closeAt := some (asked.closeAt.getD asked.requested) }
    | .onWrite _ => asked

def Notification.other : Notification → Notification
  | bufferFull => bufferEmpty
  | bufferEmpty => bufferFull

def Alternates : Notification → List Notification → Prop
  | _, [] => True
  | first, notification :: rest => notification = first ∧ Alternates first.other rest

def Session.watchesWrite (s : Session) : Bool := (s.interest.map Events.write).getD false

structure Good (s : Session) (asked : Asked) : Prop where
  stream : s.conn.accepted <+: asked.requested
  closed : s.closed = some .request → asked.closeAt = some s.conn.accepted
  awaited : s.closed = none → s.conn.accepted ≠ asked.requested ∨ s.conn.trunks ≠ [] →
    s.watchesWrite = true
  notified : Alternates .bufferFull s.notified

def Right (config : Config) (s : Session) (asked : Asked) : List Event → Prop
  | [] => Good s asked
  | event :: events => Good s asked ∧
    match s.step config event with
    | .returned s' _ => Right config s' (asked.after s event) events
    | .unfinished s' => Good s' asked

/-- A send to a connection that is not watched has no bytes, or goes to the socket as a whole. A
write event finds nothing queued before the connect notification. -/
def Allowed (s : Session) : Event → Prop
  | .send data results => s.closed = none → s.removed = true → data.bytes = [] ∨
      s.directSend = true ∧ ∀ ret, direct data.bytes.length results.results ≠ .rest ret
  | .onWrite _ => s.closed = none → s.connectNotify = true → s.conn.trunks = []
  | _ => True

def AllAllowed (config : Config) (s : Session) : List Event → Prop
  | [] => True
  | event :: events => Allowed s event ∧
    match s.step config event with
    | .returned s' _ => AllAllowed config s' events
    | .unfinished _ => True

def Session.fresh (connectNotify closeReset directSend : Bool) (bufferSize : Nat) : Session :=
  { conn := ⟨none, false, false, []⟩
    closed := none
    interest := some (if connectNotify then ⟨false, true⟩ else ⟨true, false⟩)
    connectNotify := connectNotify
    closeNotify := false
    closeForce := false
    closeReset := closeReset
    removed := false
    listenWait := false
    directSend := directSend
    overflow := false
    highWatermark := false
    bufferSize := bufferSize
    notified := [] }

def turn : Notification → List Notification → Notification
  | first, [] => first
  | first, _ :: rest => turn first.other rest

theorem alternates_concat {first notification : Notification} {notified : List Notification} :
    Alternates first (notified ++ [notification]) ↔
      Alternates first notified ∧ notification = turn first notified := by
  induction notified generalizing first with
  | nil => simp [Alternates, turn]
  | cons head rest ih =>
    rw [List.cons_append, Alternates, Alternates, turn, ih, and_assoc]

theorem turn_concat {first notification : Notification} {notified : List Notification} :
    turn first (notified ++ [notification]) = (turn first notified).other := by
  induction notified generalizing first with
  | nil => rfl
  | cons head rest ih => exact ih

/-- A connection that is open: the stream is what was asked for, and a write event is awaited
for the chunks. -/
structure Opened (s : Session) (asked : Asked) : Prop where
  stream : s.conn.stream = asked.requested
  valid : s.conn.Valid
  sized : s.conn.Sized
  closeNotify : s.closeNotify = false
  closeForce : s.closeForce = false
  removed : s.removed = true → s.conn.trunks = [] ∧ s.interest = none
  watched : s.removed = false → s.interest ≠ none
  awaited : s.conn.trunks ≠ [] → s.watchesWrite = true
  noClose : asked.closeAt = none → .close ∉ s.conn.trunks
  atClose : ∀ before, asked.closeAt = some before →
    .close ∈ s.conn.trunks ∧ s.conn.accepted ++ untilClose s.conn.trunks = before
  turn : turn .bufferFull s.notified = if s.highWatermark then .bufferEmpty else .bufferFull

variable {asked : Asked}

theorem Opened.accepted_of_empty {s : Session} (opened : Opened s asked)
    (nothing : s.conn.trunks = []) : s.conn.accepted = asked.requested :=
  (Connection.stream_of_empty nothing).symm.trans opened.stream

structure Inv (s : Session) (asked : Asked) : Prop where
  notified : Alternates .bufferFull s.notified
  opened : s.closed = none → Opened s asked
  closed : s.closed ≠ none → s.conn.accepted <+: asked.requested ∧
    (s.closed = some .request → asked.closeAt = some s.conn.accepted)

theorem Inv.good {s : Session} (inv : Inv s asked) : Good s asked := by
  cases closed : s.closed with
  | some why =>
    obtain ⟨stream, request⟩ := inv.closed (by simp [closed])
    refine ⟨stream, request, fun open_ => ?_, inv.notified⟩
    rw [closed] at open_
    cases open_
  | none =>
    have opened := inv.opened closed
    refine ⟨⟨_, opened.stream⟩, fun request => ?_, fun _ pending => ?_, inv.notified⟩
    · rw [closed] at request
      cases request
    · refine opened.awaited ?_
      rcases pending with more | chunks
      · intro nothing
        exact more (opened.accepted_of_empty nothing)
      · exact chunks

theorem Inv.fresh (connectNotify closeReset directSend : Bool) (bufferSize : Nat) :
    Inv (.fresh connectNotify closeReset directSend bufferSize) ⟨[], none⟩ where
  notified := trivial
  opened _ :=
    { stream := rfl
      valid := fun _ mem => nomatch mem
      sized := fun _ here => nomatch here
      closeNotify := rfl
      closeForce := rfl
      removed := fun removed => nomatch removed
      watched := fun _ unknown => nomatch unknown
      awaited := fun chunks => absurd rfl chunks
      noClose := fun _ mem => nomatch mem
      atClose := fun _ at_ => nomatch at_
      turn := rfl }
  closed closed := absurd rfl closed

theorem untilClose_append_of_mem {trunks : List Trunk} (mem : .close ∈ trunks)
    (more : List Trunk) : untilClose (trunks ++ more) = untilClose trunks := by
  induction trunks with
  | nil => cases mem
  | cons trunk rest ih =>
    rw [List.cons_append, untilClose, untilClose]
    cases trunk with
    | close => rfl
    | data bytes offset =>
      rw [ih (by simpa using mem)]
    | sendfile file offset length =>
      rw [ih (by simpa using mem)]

theorem untilClose_append_close {trunks : List Trunk} (notMem : .close ∉ trunks)
    (more : List Trunk) : untilClose (trunks ++ .close :: more) = trunks.flatMap Trunk.rest := by
  induction trunks with
  | nil => rfl
  | cons trunk rest ih =>
    rw [List.mem_cons, not_or] at notMem
    rw [List.cons_append, untilClose, ih notMem.2, List.flatMap_cons]
    cases trunk with
    | close => exact absurd rfl notMem.1
    | data bytes offset => rfl
    | sendfile file offset length => rfl

theorem enqueue_spec (buffer : Buffer) (bytes : Bytes) :
    ∃ new, (enqueue buffer bytes).trunks = buffer.trunks ++ new ∧
      new.flatMap Trunk.rest = bytes ∧ (∀ trunk ∈ new, trunk.Valid ∧ trunk ≠ .close) ∧
      (buffer.Sized → (enqueue buffer bytes).Sized) := by
  fun_induction enqueue buffer bytes with
  | case1 buffer => exact ⟨[], by simp, rfl, by rintro _ ⟨⟩, id⟩
  | case2 buffer bytes some_byte ih =>
    obtain ⟨new, trunks, rest, fresh, sized⟩ := ih
    refine ⟨.data (bytes.take bufferSizeBig) 0 :: new, ?_, ?_, ?_, fun old => ?_⟩
    · rw [trunks]
      simp [Buffer.append, Buffer.newTrunk]
    · rw [List.flatMap_cons, rest]
      simp [Trunk.rest]
    · exact List.forall_mem_cons.mpr ⟨⟨Nat.zero_le _, by rintro ⟨⟩⟩, fresh⟩
    · exact sized (old.append _)

theorem Opened.closeAt_none {s : Session} (opened : Opened s asked)
    (noClose : .close ∉ s.conn.trunks) : asked.closeAt = none := by
  cases at_ : asked.closeAt with
  | none => rfl
  | some before => exact absurd (opened.atClose before at_).1 noClose

structure Pushed (s s' : Session) (new : List Trunk) : Prop where
  accepted : s'.conn.accepted = s.conn.accepted
  trunks : s'.conn.trunks = s.conn.trunks ++ new
  valid : ∀ trunk ∈ new, trunk.Valid
  sized : s'.conn.Sized
  closed : s'.closed = none
  interest : s'.interest = s.interest
  removed : s'.removed = s.removed
  closeNotify : s'.closeNotify = s.closeNotify
  closeForce : s'.closeForce = s.closeForce
  notified : Alternates .bufferFull s'.notified
  turn : ReactorThreadSend.turn .bufferFull s'.notified =
    if s'.highWatermark then .bufferEmpty else .bufferFull

theorem Pushed.inv {s s' : Session} {asked' : Asked} {new : List Trunk}
    (pushed : Pushed s s' new) (opened : Opened s asked)
    (requested : asked'.requested = asked.requested ++ new.flatMap Trunk.rest)
    (noClose : asked'.closeAt = none → .close ∉ s.conn.trunks ++ new)
    (atClose : ∀ before, asked'.closeAt = some before → .close ∈ s.conn.trunks ++ new ∧
      s.conn.accepted ++ untilClose (s.conn.trunks ++ new) = before) : Inv s'.listen asked' := by
  have stream : s'.conn.stream = asked'.requested := by
    rw [Connection.stream, pushed.accepted, pushed.trunks, requested, ← opened.stream,
      Connection.stream, List.flatMap_append, List.append_assoc]
  cases interest : s.interest with
  | none =>
    have listened : s'.listen = s'.close .error := by
      simp [Session.listen, pushed.interest, interest]
    rw [listened]
    exact ⟨pushed.notified, by rintro ⟨⟩, fun _ => ⟨⟨_, stream⟩, by rintro ⟨⟩⟩⟩
  | some events =>
    have listened : s'.listen = { s' with interest := some ⟨true, true⟩ } := by
      simp [Session.listen, pushed.interest, interest]
    have notRemoved : s.removed = false := by
      by_contra removed
      have unknown := (opened.removed (by simpa using removed)).2
      rw [interest] at unknown
      cases unknown
    rw [listened]
    refine ⟨pushed.notified, fun _ => ?_, fun closed => absurd pushed.closed closed⟩
    exact
      { stream := stream
        valid := by
          intro trunk mem
          change trunk ∈ s'.conn.trunks at mem
          rw [pushed.trunks] at mem
          rcases List.mem_append.mp mem with mem | mem
          · exact opened.valid trunk mem
          · exact pushed.valid trunk mem
        sized := pushed.sized
        closeNotify := pushed.closeNotify.trans opened.closeNotify
        closeForce := pushed.closeForce.trans opened.closeForce
        removed := by
          intro removed
          change s'.removed = true at removed
          rw [pushed.removed, notRemoved] at removed
          cases removed
        watched := fun _ unknown => by cases unknown
        awaited := fun _ => rfl
        noClose := by
          intro none_
          change .close ∉ s'.conn.trunks
          rw [pushed.trunks]
          exact noClose none_
        atClose := by
          intro before at_
          change .close ∈ s'.conn.trunks ∧ s'.conn.accepted ++ untilClose s'.conn.trunks = before
          rw [pushed.trunks, pushed.accepted]
          exact atClose before at_
        turn := pushed.turn }

theorem Pushed.inv_output {s s' : Session} {new : List Trunk}
    (pushed : Pushed s s' new) (opened : Opened s asked) (output : ∀ trunk ∈ new, trunk ≠ .close) :
    Inv s'.listen { asked with requested := asked.requested ++ new.flatMap Trunk.rest } := by
  refine pushed.inv opened rfl ?_ ?_
  · intro none_ mem
    rcases List.mem_append.mp mem with mem | mem
    · exact opened.noClose none_ mem
    · exact output .close mem rfl
  · intro before at_
    obtain ⟨mem, same⟩ := opened.atClose before at_
    exact ⟨List.mem_append_left _ mem, by rw [untilClose_append_of_mem mem]; exact same⟩

theorem Pushed.inv_close {s s' : Session} (pushed : Pushed s s' [.close])
    (opened : Opened s asked) :
    Inv s'.listen { asked with closeAt := some (asked.closeAt.getD asked.requested) } := by
  refine pushed.inv opened (by simp [Trunk.rest]) nofun ?_
  rintro _ ⟨⟩
  refine ⟨by simp, ?_⟩
  cases at_ : asked.closeAt with
  | some before =>
    obtain ⟨mem, same⟩ := opened.atClose before at_
    rw [untilClose_append_of_mem mem]
    exact same
  | none =>
    rw [untilClose_append_close (opened.noClose at_)]
    exact opened.stream

def Called.Keeps (asked asked' : Asked) : Called → Prop
  | returned s' _ => Inv s' asked'
  | unfinished s' => Inv s' asked

section

variable {config : Config} {s : Session} {asked : Asked}

theorem Opened.old (opened : Opened s asked) : (s.conn.outBuffer.getD .new).trunks = s.conn.trunks ∧
      (s.conn.outBuffer.getD .new).Sized := by
  cases here : s.conn.outBuffer with
  | none => exact ⟨by simp [Connection.trunks, here, Buffer.new], Buffer.sized_new⟩
  | some buffer => exact ⟨by simp [Connection.trunks, here], opened.sized buffer here⟩

theorem Opened.accept (opened : Opened s asked) (nothing : s.conn.trunks = []) (bytes : Bytes) :
    Opened { s with conn := s.conn.accept bytes }
      { asked with requested := asked.requested ++ bytes } :=
  have none_ := opened.closeAt_none (by simp [nothing])
  { stream := by
      rw [← opened.stream]
      exact Connection.stream_accept nothing bytes
    valid := opened.valid
    sized := opened.sized
    closeNotify := opened.closeNotify
    closeForce := opened.closeForce
    removed := opened.removed
    watched := opened.watched
    awaited := opened.awaited
    noClose := opened.noClose
    atClose := fun before at_ => by
      change asked.closeAt = some before at at_
      rw [none_] at at_
      cases at_
    turn := opened.turn }

theorem inv_queue (opened : Opened s asked) (open_ : s.closed = none)
    (notified : Alternates .bufferFull s.notified) (notRemoved : s.removed = false)
    (bytes : Bytes) :
    Inv (s.queue config bytes).1 { asked with requested := asked.requested ++ bytes } := by
  obtain ⟨oldTrunks, oldSized⟩ := opened.old
  obtain ⟨new, trunks, rest, fresh, sized⟩ := enqueue_spec (s.conn.outBuffer.getD .new) bytes
  have sizedNew : ∀ conn : Connection,
      conn.outBuffer = some (enqueue (s.conn.outBuffer.getD .new) bytes) → conn.Sized := by
    intro conn here buffer known
    rw [here] at known
    cases known
    exact sized oldSized
  have request : ({ asked with requested := asked.requested ++ bytes } : Asked) =
      { asked with requested := asked.requested ++ new.flatMap Trunk.rest } := by
    rw [rest]
  rw [request]
  unfold Session.queue
  simp only
  rw [if_neg (by simp [notRemoved])]
  split
  · rename_i full
    refine Pushed.inv_output (s := s) ?_ opened fun trunk mem => (fresh trunk mem).2
    exact
      { accepted := rfl
        trunks := by rw [← oldTrunks]; exact trunks
        valid := fun trunk mem => (fresh trunk mem).1
        sized := sizedNew _ rfl
        closed := open_
        interest := rfl
        removed := rfl
        closeNotify := rfl
        closeForce := rfl
        notified := alternates_concat.mpr
          ⟨notified, by rw [opened.turn, full.2.1, if_neg Bool.false_ne_true]⟩
        turn := by
          refine turn_concat.trans ?_
          rw [opened.turn, full.2.1, if_neg Bool.false_ne_true]
          rfl }
  · refine Pushed.inv_output (s := s) ?_ opened fun trunk mem => (fresh trunk mem).2
    exact
      { accepted := rfl
        trunks := by rw [← oldTrunks]; exact trunks
        valid := fun trunk mem => (fresh trunk mem).1
        sized := sizedNew _ rfl
        closed := open_
        interest := rfl
        removed := rfl
        closeNotify := rfl
        closeForce := rfl
        notified := notified
        turn := opened.turn }

theorem queue_removed (removed : s.removed = true) (bytes : Bytes) : s.queue config bytes =
      ({ s with conn := { s.conn with outBuffer := some (s.conn.outBuffer.getD .new) } }, -1) := by
  simp [Session.queue, removed]

theorem Opened.materialize (opened : Opened s asked) :
    Opened { s with conn := { s.conn with outBuffer := some (s.conn.outBuffer.getD .new) } }
      asked := by
  obtain ⟨trunks, sized⟩ := opened.old
  have same : ({ s.conn with outBuffer := some (s.conn.outBuffer.getD .new) } :
      Connection).trunks = s.conn.trunks := trunks
  exact
    { stream := by
        rw [← opened.stream, Connection.stream, Connection.stream, same]
      valid := by
        intro trunk mem
        rw [same] at mem
        exact opened.valid trunk mem
      sized := by
        rintro buffer ⟨⟩
        exact sized
      closeNotify := opened.closeNotify
      closeForce := opened.closeForce
      removed := by
        rw [same]
        exact opened.removed
      watched := opened.watched
      awaited := by
        rw [same]
        exact opened.awaited
      noClose := by
        rw [same]
        exact opened.noClose
      atClose := by
        rw [same]
        exact opened.atClose
      turn := opened.turn }

theorem Opened.inv (opened : Opened s asked) (open_ : s.closed = none)
    (notified : Alternates .bufferFull s.notified) : Inv s asked :=
  ⟨notified, fun _ => opened, fun closed => absurd open_ closed⟩

theorem direct_rest {n ret : Nat} {results : List SendResult} (rest : direct n results = .rest ret)
    (positive : 0 < n) : ret < n := by
  induction results with
  | nil => cases rest
  | cons result results ih =>
    simp only [direct] at rest
    split at rest
    · cases rest
    · rename_i notAll
      split at rest
      · cases rest
        cases accepted : result.accepted with
        | none => exact positive
        | some k =>
          rw [accepted] at notAll
          simp only [Option.map_some, Option.some_inj] at notAll
          simp only [Option.map_some, Option.getD_some]
          omega
      · split at rest
        · exact ih rest
        · cases rest
          exact positive

theorem send_allowed (opened : Opened s asked) (open_ : s.closed = none)
    (notified : Alternates .bufferFull s.notified) {bytes : Bytes} {results : List SendResult}
    (allowed : s.removed = true → bytes = [] ∨
      s.directSend = true ∧ ∀ ret, direct bytes.length results ≠ .rest ret) :
    (s.send config bytes results).Keeps asked
      { asked with requested := asked.requested ++ bytes } := by
  -- nothing is lost of no bytes
  have empty : ∀ s' : Session, Opened s' asked → s'.closed = none →
      Alternates .bufferFull s'.notified → s'.removed = true → bytes = [] →
      Inv (s'.queue config bytes).1 { asked with requested := asked.requested ++ bytes } := by
    rintro s' opened' open' notified' removed rfl
    rw [queue_removed removed, List.append_nil]
    exact opened'.materialize.inv open' notified'
  unfold Session.send
  split
  · rename_i both
    split
    · exact (opened.accept both.1 bytes).inv open_ notified
    · rename_i ret rest
      have accepted := opened.accept both.1 (bytes.take ret)
      rcases Bool.eq_false_or_eq_true s.removed with removed | removed
      · rcases allowed removed with rfl | ⟨-, whole⟩
        · rw [List.take_nil, List.drop_nil, accept_nil]
          exact empty s opened open_ notified removed rfl
        · exact absurd rest (whole ret)
      · have queued := @inv_queue config _ _ accepted open_ notified removed (bytes.drop ret)
        simp only [List.append_assoc, List.take_append_drop] at queued
        exact queued
    · exact opened.inv open_ notified
  · rename_i notDirect
    rcases Bool.eq_false_or_eq_true s.removed with removed | removed
    · rcases allowed removed with none_ | ⟨direct_, -⟩
      · exact empty s opened open_ notified removed none_
      · exact absurd ⟨(opened.removed removed).1, direct_⟩ notDirect
    · exact inv_queue opened open_ notified removed bytes

theorem send_forbidden (opened : Opened s asked) (open_ : s.closed = none) {bytes : Bytes}
    {results : List SendResult} (removed : s.removed = true) (some_byte : bytes ≠ [])
    (notWhole : s.directSend = true → ∃ ret, direct bytes.length results = .rest ret) :
    ∃ s' ret, s.send config bytes results = .returned s' ret ∧
      ¬ Good s' { asked with requested := asked.requested ++ bytes } := by
  obtain ⟨nothing, unknown⟩ := opened.removed removed
  have whole := opened.accepted_of_empty nothing
  -- the rest of the bytes is dropped
  have dropped : ∀ front rest, bytes = front ++ rest → rest ≠ [] →
      ¬ Good ({ s with conn := s.conn.accept front }.queue config rest).1
        { asked with requested := asked.requested ++ bytes } := by
    intro front rest split some_rest good
    rw [@queue_removed config { s with conn := s.conn.accept front } removed] at good
    have pending : s.conn.accepted ++ front ≠ asked.requested ++ bytes := by
      rw [whole, split]
      intro same
      have lengths := congrArg List.length same
      simp only [List.length_append] at lengths
      exact some_rest (List.eq_nil_of_length_eq_zero (by omega))
    have awaited := good.awaited open_ (.inl pending)
    simp [Session.watchesWrite, unknown] at awaited
  unfold Session.send
  by_cases direct_ : s.directSend = true
  · obtain ⟨ret, rest⟩ := notWhole direct_
    rw [if_pos ⟨nothing, direct_⟩, rest]
    refine ⟨_, _, rfl, dropped (bytes.take ret) (bytes.drop ret)
      (List.take_append_drop _ _).symm ?_⟩
    have less := direct_rest rest (List.length_pos_of_ne_nil some_byte)
    intro empty
    have := congrArg List.length empty
    rw [List.length_drop, List.length_nil] at this
    omega
  · rw [if_neg fun both => direct_ both.2]
    refine ⟨_, _, rfl, ?_⟩
    have none_ := dropped [] bytes rfl some_byte
    rwa [accept_nil] at none_

theorem inv_sendfile (opened : Opened s asked) (open_ : s.closed = none)
    (notified : Alternates .bufferFull s.notified) (range : Range) :
    Inv (s.sendfile range.file range.offset range.length)
      { asked with requested := asked.requested ++ range.bytes } := by
  obtain ⟨oldTrunks, oldSized⟩ := opened.old
  have valid := range.valid
  have inFile : ¬ range.file.length < range.length + range.offset := by omega
  have rest : range.bytes =
      [Trunk.sendfile range.file range.offset range.stop].flatMap Trunk.rest := by
    simp [Range.bytes, Trunk.rest]
  have within : range.offset ≤ range.stop ∧ range.stop ≤ range.file.length := by
    unfold Range.stop
    split <;> omega
  rw [rest]
  unfold Session.sendfile
  simp only [inFile, if_false]
  refine Pushed.inv_output (s := s) ?_ opened fun trunk mem => ?_
  · exact
      { accepted := rfl
        trunks := by rw [← oldTrunks]; rfl
        valid := fun trunk mem => by
          rw [List.mem_singleton.mp mem]
          exact within
        sized := by
          rintro buffer ⟨⟩
          rw [Buffer.Sized] at oldSized ⊢
          simpa [Buffer.newTrunk, Buffer.total, Trunk.length] using oldSized
        closed := open_
        interest := rfl
        removed := rfl
        closeNotify := rfl
        closeForce := rfl
        notified := notified
        turn := opened.turn }
  · rw [List.mem_singleton.mp mem]
    rintro ⟨⟩

theorem inv_closeRequest (opened : Opened s asked) (open_ : s.closed = none)
    (notified : Alternates .bufferFull s.notified) : Inv s.closeRequest
      { asked with closeAt := some (asked.closeAt.getD asked.requested) } := by
  unfold Session.closeRequest
  split
  · exact ⟨notified, nofun, fun _ => ⟨⟨_, opened.stream⟩, nofun⟩⟩
  · split
    · rename_i nothing
      have whole := opened.accepted_of_empty nothing
      have none_ := opened.closeAt_none (by simp [nothing])
      refine ⟨notified, nofun, fun _ => ⟨⟨_, opened.stream⟩, fun _ => ?_⟩⟩
      change some (asked.closeAt.getD asked.requested) = some s.conn.accepted
      rw [none_, whole]
      rfl
    · rename_i some_trunk
      obtain ⟨buffer, here⟩ : ∃ buffer, s.conn.outBuffer = some buffer := by
        cases known : s.conn.outBuffer with
        | none => exact absurd (by simp [Connection.trunks, known]) some_trunk
        | some buffer => exact ⟨buffer, rfl⟩
      refine Pushed.inv_close (s := s) ?_ opened
      exact
        { accepted := rfl
          trunks := by
            simp [Connection.trunks, here, Buffer.newTrunk]
          valid := fun trunk mem => by
            rw [List.mem_singleton.mp mem]
            trivial
          sized := by
            intro other known
            obtain ⟨old, same, rfl⟩ := Option.map_eq_some_iff.mp known
            have sized := opened.sized old same
            rw [Buffer.Sized] at sized ⊢
            simpa [Buffer.newTrunk, Buffer.total, Trunk.length] using sized
          closed := open_
          interest := rfl
          removed := rfl
          closeNotify := rfl
          closeForce := rfl
          notified := notified
          turn := opened.turn }

theorem Opened.drained (opened : Opened s asked) {conn : Connection}
    (kept : Connection.Kept s.conn conn) (awaited : conn.trunks ≠ [] → s.conn.trunks ≠ []) :
    Opened { s with conn := conn } asked where
  stream := kept.stream.trans opened.stream
  valid := kept.valid
  sized := kept.sized
  closeNotify := opened.closeNotify
  closeForce := opened.closeForce
  removed removed := by
    obtain ⟨nothing, unknown⟩ := opened.removed removed
    refine ⟨?_, unknown⟩
    by_contra left
    exact awaited left nothing
  watched := opened.watched
  awaited left := opened.awaited (awaited left)
  noClose none_ mem := opened.noClose none_ (kept.closes.mp mem)
  atClose before at_ := by
    obtain ⟨mem, same⟩ := opened.atClose before at_
    exact ⟨kept.closes.mpr mem, kept.untilClose.trans same⟩
  turn := opened.turn

theorem inv_settle (opened : Opened s asked) (open_ : s.closed = none)
    (notified : Alternates .bufferFull s.notified) : Inv (s.settle config) asked := by
  -- the notification, and then the event
  have unwatch : ∀ s' : Session, Opened s' asked → s'.closed = none →
      Alternates .bufferFull s'.notified →
      Inv (if s'.removed = false ∧ s'.conn.trunks = [] then
        { s' with interest := s'.interest.map fun _ => ⟨true, false⟩ } else s') asked := by
    intro s' opened' open' notified'
    split
    · rename_i both
      refine ⟨notified', fun _ => ?_, fun closed => absurd open' closed⟩
      exact { opened' with
        removed := fun removed => by
          rw [both.1] at removed
          cases removed
        watched := fun notRemoved unknown => opened'.watched notRemoved (by simpa using unknown)
        awaited := fun left => absurd both.2 left }
    · exact opened'.inv open' notified'
  unfold Session.settle
  simp only
  split
  · rename_i low
    refine unwatch _ ?_ open_ ?_
    · exact { opened with
        turn := by
          refine turn_concat.trans ?_
          rw [opened.turn, if_pos low.2.1]
          rfl }
    · exact alternates_concat.mpr ⟨notified, by rw [opened.turn, if_pos low.2.1]⟩
  · exact unwatch _ { opened with } open_ notified

theorem onWrite_allowed (opened : Opened s asked) (open_ : s.closed = none)
    (notified : Alternates .bufferFull s.notified) (results : Results)
    (allowed : s.connectNotify = true → s.conn.trunks = []) :
    (s.onWrite config results.results).Keeps asked asked := by
  unfold Session.onWrite
  split
  · rename_i connect
    have nothing := allowed connect
    split
    · refine ⟨notified, fun _ => ?_, fun closed => absurd open_ closed⟩
      exact { opened with
        removed := fun _ => ⟨nothing, rfl⟩
        watched := nofun
        awaited := fun left => absurd nothing left }
    · refine ⟨notified, fun _ => ?_, fun closed => absurd open_ closed⟩
      exact { opened with
        removed := fun removed => ⟨nothing, by
          change s.interest.map _ = none
          rw [(opened.removed removed).2]
          rfl⟩
        watched := fun notRemoved unknown => opened.watched notRemoved (by simpa using unknown)
        awaited := fun left => absurd nothing left }
  rw [if_neg (by simp [opened.closeNotify]), if_neg (by simp [opened.closeForce])]
  have drained := drain_kept s.conn results.results opened.valid opened.sized
    fun trunk _ result used => by
      rcases results.serves result used with some_byte | ⟨none_, again⟩
      · exact ⟨fun none_ => by simp [none_] at some_byte, fun _ => .inl some_byte⟩
      · exact ⟨fun _ => .inl again, fun _ => .inr again⟩
  have kept := drained.kept
  have before : (drain s.conn results.results).conn.trunks ≠ [] → s.conn.trunks ≠ [] := by
    intro left nothing
    rw [ReactorWrite.drain_nil nothing] at left
    exact left nothing
  cases outcome : drain s.conn results.results with
  | empty conn =>
    rw [outcome] at kept before
    exact inv_settle (opened.drained kept before) open_ notified
  | waits conn =>
    rw [outcome] at kept before
    exact inv_settle (opened.drained kept before) open_ notified
  | unfinished conn =>
    rw [outcome] at kept before
    exact (opened.drained kept before).inv open_ notified
  | close conn =>
    rw [outcome] at kept before
    have opened' := opened.drained kept before
    refine ⟨notified, nofun, fun _ => ⟨⟨_, opened'.stream⟩, fun request => ?_⟩⟩
    -- the close is at the head, so all before it was accepted
    obtain ⟨trunk, rest, trunks, isClose⟩ : ∃ trunk rest, conn.trunks = trunk :: rest ∧
        trunk.isClose = true := by
      cases trunks : conn.trunks with
      | nil => simp [Session.close, trunks] at request
      | cons trunk rest =>
        refine ⟨trunk, rest, rfl, ?_⟩
        by_contra notClose
        simp [Session.close, trunks, notClose] at request
    cases trunk with
    | data bytes offset => cases isClose
    | sendfile file offset length => cases isClose
    | close =>
      have mem : .close ∈ conn.trunks := by simp [trunks]
      cases at_ : asked.closeAt with
      | none => exact absurd mem (opened'.noClose at_)
      | some before' =>
        have same : conn.accepted ++ untilClose conn.trunks = before' :=
          (opened'.atClose before' at_).2
        simp only [trunks, untilClose, Trunk.isClose, if_true, List.append_nil] at same
        exact congrArg some same.symm

theorem onWrite_forbidden (open_ : s.closed = none) (results : Results)
    (connect : s.connectNotify = true) (left : s.conn.trunks ≠ []) :
    ∃ s' ret, s.onWrite config results.results = .returned s' ret ∧ ¬ Good s' asked := by
  unfold Session.onWrite
  rw [if_pos connect]
  split
  · refine ⟨_, _, rfl, fun good => ?_⟩
    have awaited := good.awaited open_ (.inr left)
    simp [Session.watchesWrite] at awaited
  · refine ⟨_, _, rfl, fun good => ?_⟩
    have awaited := good.awaited open_ (.inr left)
    cases interest : s.interest <;> simp [Session.watchesWrite, interest] at awaited

end

theorem step_allowed {config : Config} {s : Session} {asked : Asked} (inv : Inv s asked)
    {event : Event} (allowed : Allowed s event) :
    (s.step config event).Keeps asked (asked.after s event) := by
  unfold Session.step Asked.after
  cases closed : s.closed with
  | some why => exact inv
  | none =>
    have opened := inv.opened closed
    simp only [Option.isSome_none, Bool.false_eq_true, if_false]
    cases event with
    | send data results => exact send_allowed opened closed inv.notified (allowed closed)
    | sendfile range => exact inv_sendfile opened closed inv.notified range
    | close => exact inv_closeRequest opened closed inv.notified
    | onWrite results => exact onWrite_allowed opened closed inv.notified results (allowed closed)

theorem step_forbidden {config : Config} {s : Session} {asked : Asked} (inv : Inv s asked)
    {event : Event} (forbidden : ¬ Allowed s event) :
    ∃ s' ret, s.step config event = .returned s' ret ∧ ¬ Good s' (asked.after s event) := by
  unfold Session.step Asked.after
  cases event with
  | send data results =>
    simp only [Allowed, Classical.not_imp, not_or, not_and, not_forall, not_not] at forbidden
    obtain ⟨closed, removed, some_byte, notWhole⟩ := forbidden
    rw [closed]
    exact send_forbidden (inv.opened closed) closed removed some_byte notWhole
  | sendfile range => exact absurd trivial forbidden
  | close => exact absurd trivial forbidden
  | onWrite results =>
    simp only [Allowed, Classical.not_imp] at forbidden
    obtain ⟨closed, connect, left⟩ := forbidden
    rw [closed]
    exact onWrite_forbidden closed results connect left

theorem right_good {config : Config} {s : Session} {asked : Asked} {events : List Event}
    (right : Right config s asked events) : Good s asked := by
  cases events with
  | nil => exact right
  | cons event events => exact right.1

theorem output_iff_of_inv {config : Config} {s : Session} {asked : Asked} (inv : Inv s asked)
    (events : List Event) : Right config s asked events ↔ AllAllowed config s events := by
  induction events generalizing s asked with
  | nil => exact iff_of_true inv.good trivial
  | cons event events ih =>
    rw [Right, AllAllowed, and_iff_right inv.good]
    by_cases allowed : Allowed s event
    · have keeps := @step_allowed config _ _ inv _ allowed
      rw [and_iff_right allowed]
      cases stepped : s.step config event with
      | returned s' ret =>
        rw [stepped] at keeps
        exact ih keeps
      | unfinished s' =>
        rw [stepped] at keeps
        exact iff_of_true keeps.good trivial
    · obtain ⟨s', ret, stepped, bad⟩ := @step_forbidden config _ _ inv _ allowed
      rw [stepped]
      exact iff_of_false (fun right => bad (right_good right)) fun both => allowed both.1

/-- In every run of requests and write events of an accepted connection the socket gets a prefix
of what was asked for, a close request closes behind everything before it, a write event is
awaited while output is pending and the notifications alternate, exactly if every event is
allowed. -/
theorem output_iff (config : Config) (connectNotify closeReset directSend : Bool)
    (bufferSize : Nat) (events : List Event) :
    Right config (.fresh connectNotify closeReset directSend bufferSize) ⟨[], none⟩ events ↔
      AllAllowed config (.fresh connectNotify closeReset directSend bufferSize) events :=
  output_iff_of_inv (Inv.fresh connectNotify closeReset directSend bufferSize) events

/-- A send before the connect notification that the socket does not take: the write event gives
notice of the connection and is not awaited again. -/
theorem not_output :
    ¬ Right ⟨false, false, 100, 50, false, false⟩ (.fresh true false true 1000) ⟨[], none⟩
      [.send ⟨[104, 105], by decide⟩ ⟨[⟨none, .again⟩], by simp⟩, .onWrite ⟨[], nofun⟩] := by
  intro right
  have awaited := right.2.2.awaited rfl (.inl (by decide))
  exact absurd awaited (by decide)

end PhpExts.Swoole.ReactorThreadSend
