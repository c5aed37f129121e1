import PhpExts.Swoole.WebSocket

/-!
# Messages of WebSocket frames

A message is sent as one frame, or as a first frame and continuation frames with control
frames between them. `swWebSocket_dispatch_frame` keeps the fragments in a buffer of the
connection and hands over the whole message, behind one byte for the flag and one for the
opcode.

The message is handed over once, as it was sent, and every ping is answered with its own
payload, exactly when the fragments fit and the pings have the plain header of two bytes
(`delivered_iff`): the answer to a ping is everything behind its second byte, the key of
a masked one included.
-/

namespace PhpExts.Swoole.WebSocket

open PhpExts.Library
open List (cons_append flatten_cons length_append length_cons length_drop nil_append not_mem_nil)

/-! ## The function of the source -/

inductive Output where
  | dispatch (bytes : List UInt8)
  | send (bytes : List UInt8)

/-- What `swWebSocket_dispatch_frame` leaves: `conn->websocket_buffer`, the outputs, and
whether it returns `SW_OK`. -/
structure Dispatched where
  buffer : Option SwString
  outputs : List Output
  ok : Bool

def swStringDup (src : List UInt8) : SwString := ⟨src, src.length + 1⟩

def markHeader (data : List UInt8) (offset opcode : Nat) : List UInt8 :=
  (data.set offset 1).set (offset + 1) (UInt8.ofNat opcode)

/-- The branch for `WEBSOCKET_OPCODE_CONTINUATION_FRAME`. The result of the append is not
looked at. -/
def dispatchContinuation (pagesize maxLength : Nat) (websocketBuffer : Option SwString)
    (ws : Decoded) : Dispatched :=
  match websocketBuffer with
  | none => ⟨none, [], false⟩
  | some frameBuffer =>
    let offset := ws.data.length - ws.frame.payloadLength
    let frameLength := ws.data.length - offset
    if maxLength < frameBuffer.content.length + frameLength then ⟨some frameBuffer, [], false⟩
    else
      let merged := (swStringAppendPtr pagesize frameBuffer (ws.data.drop offset)
        (toInt frameLength)).elim frameBuffer Prod.fst
      if ws.frame.fin then ⟨none, [.dispatch merged.content], true⟩
      else ⟨some merged, [], true⟩

/-- The branch for `WEBSOCKET_OPCODE_TEXT_FRAME` and `WEBSOCKET_OPCODE_BINARY_FRAME`. -/
def dispatchFirst (websocketBuffer : Option SwString) (ws : Decoded) : Dispatched :=
  let offset := ws.data.length - ws.frame.payloadLength - 2
  let message := (markHeader ws.data offset ws.frame.opcode).drop offset
  if ws.frame.fin then ⟨websocketBuffer, [.dispatch message], true⟩
  else if websocketBuffer.isSome then ⟨websocketBuffer, [], false⟩
  else ⟨some (swStringDup message), [], true⟩

/-- The branch for `WEBSOCKET_OPCODE_PING`; the answer is encoded in `buf`, which has 128
bytes. -/
def dispatchPing (pagesize : Nat) (websocketBuffer : Option SwString) (ws : Decoded) : Dispatched :=
  if 126 ≤ ws.data.length then ⟨websocketBuffer, [], false⟩
  else
    let payload := if ws.data.length = 2 then [] else ws.data.drop 2
    let sendFrame := (swWebSocketEncode pagesize false ⟨[], 128⟩ payload 10 true false).elim []
      SwString.content
    ⟨websocketBuffer, [.send sendFrame], true⟩

def swWebSocketDispatchFrame (pagesize maxLength : Nat) (websocketBuffer : Option SwString)
    (data : List UInt8) : Dispatched :=
  let ws := swWebSocketDecode data
  match ws.frame.opcode with
  | 0 => dispatchContinuation pagesize maxLength websocketBuffer ws
  | 1 | 2 => dispatchFirst websocketBuffer ws
  | 9 => dispatchPing pagesize websocketBuffer ws
  | 8 =>
    if 0x7d < data.length - 2 then ⟨websocketBuffer, [], false⟩
    else ⟨websocketBuffer, [.send [0x88, 0x00]], false⟩
  | _ => ⟨websocketBuffer, [], true⟩

/-- The outputs for frames that come one after the other; the connection ends with the
first error. -/
def run (pagesize maxLength : Nat) : Option SwString → List (List UInt8) → List Output
  | _, [] => []
  | websocketBuffer, data :: rest =>
    let dispatched := swWebSocketDispatchFrame pagesize maxLength websocketBuffer data
    if dispatched.ok then dispatched.outputs ++ run pagesize maxLength dispatched.buffer rest
    else dispatched.outputs

def messages (outputs : List Output) : List (List UInt8) :=
  outputs.filterMap fun output => match output with
    | .dispatch bytes => some bytes
    | .send _ => none

/-- The bytes for the peer among the outputs. -/
def answers (outputs : List Output) : List (List UInt8) :=
  outputs.filterMap fun output => match output with
    | .dispatch _ => none
    | .send bytes => some bytes

def opcodeOf (frame : List UInt8) : Nat := (frame.getD 0 0).toNat % 16

def IsFinal (frame : List UInt8) : Prop := (frame.getD 0 0).toNat / 128 = 1

instance : DecidablePred IsFinal := fun _ => inferInstanceAs (Decidable (_ = _))

def headerSize : List UInt8 → Nat
  | _ :: second :: _ => 2 + extended second + keyLength second
  | _ => 0

def payloadOf : List UInt8 → List UInt8
  | _ :: second :: rest =>
    let body := rest.drop (extended second + keyLength second)
    if keyLength second = 0 then body else xorKey ((rest.drop (extended second)).take 4) body
  | _ => []

/-- The bytes are one frame, of a length that fits in `int`. -/
structure Whole (frame : List UInt8) : Prop where
  length : rfcLength frame = some frame.length
  small : frame.length < 2 ^ 31

/-- Continuation frames, the last of them final, and control frames other than close
between them; and the payloads of the continuation frames. -/
inductive Continues : List (List UInt8) → List (List UInt8) → Prop
  | last {frame : List UInt8} (whole : Whole frame) (opcode : opcodeOf frame = 0)
      (final : IsFinal frame) : Continues [frame] [payloadOf frame]
  | more {frame : List UInt8} {frames payloads : List (List UInt8)} (whole : Whole frame)
      (opcode : opcodeOf frame = 0) (final : ¬ IsFinal frame) (rest : Continues frames payloads) :
      Continues (frame :: frames) (payloadOf frame :: payloads)
  | control {frame : List UInt8} {frames payloads : List (List UInt8)} (whole : Whole frame)
      (opcode : 9 ≤ opcodeOf frame) (rest : Continues frames payloads) :
      Continues (frame :: frames) payloads

inductive Message : List (List UInt8) → List (List UInt8) → Prop
  | single {frame : List UInt8} (whole : Whole frame)
      (opcode : opcodeOf frame = 1 ∨ opcodeOf frame = 2) (final : IsFinal frame) :
      Message [frame] [payloadOf frame]
  | fragmented {frame : List UInt8} {frames payloads : List (List UInt8)} (whole : Whole frame)
      (opcode : opcodeOf frame = 1 ∨ opcodeOf frame = 2) (final : ¬ IsFinal frame)
      (rest : Continues frames payloads) :
      Message (frame :: frames) (payloadOf frame :: payloads)

def pings (frames : List (List UInt8)) : List (List UInt8) :=
  frames.filter fun frame => opcodeOf frame = 9

def Answers (ping pong : List UInt8) : Prop :=
  Whole pong ∧ opcodeOf pong = 10 ∧ payloadOf pong = payloadOf ping

/-- The message is handed over once, behind the flag and the opcode of its first frame,
and every ping has its answer. -/
def Delivered (frames payloads : List (List UInt8)) (outputs : List Output) : Prop :=
  messages outputs =
      [1 :: UInt8.ofNat (opcodeOf (frames.headD [])) :: payloads.flatten] ∧
    List.Forall₂ Answers (pings frames) (answers outputs)

section

variable {pagesize maxLength : Nat} {frame : List UInt8} {buffer : Option SwString}
  {str : SwString}

structure Parts (frame : List UInt8) (ws : Decoded) : Prop where
  opcode : ws.frame.opcode = opcodeOf frame
  fin : ws.frame.fin = true ↔ IsFinal frame
  payloadLength : headerSize frame + ws.frame.payloadLength = frame.length
  data : ws.data = frame.take (headerSize frame) ++ payloadOf frame
  payload : (payloadOf frame).length = ws.frame.payloadLength
  header : 2 ≤ headerSize frame

theorem Whole.parts (whole : Whole frame) : Parts frame (swWebSocketDecode frame) := by
  obtain ⟨length, -⟩ := whole
  rcases frame with _ | ⟨first, _ | ⟨second, rest⟩⟩
  · cases length
  · cases length
  rw [rfcLength] at length
  by_cases short : rest.length < extended second + keyLength second
  · rw [if_pos short] at length
    cases length
  rw [if_neg short] at length
  have count := Option.some.inj length
  simp only [length_cons] at count
  have byte₀ : (first :: second :: rest).getD 0 0 = first := rfl
  have byte₁ : (first :: second :: rest).getD 1 0 = second := rfl
  rw [decode_cons _ _ _ (by omega), decodeMask, byte₀, byte₁]
  rcases toNat_div second with none | key
  · have keyless : keyLength second = 0 := if_neg (by omega)
    rw [if_neg (by omega)]
    refine ⟨rfl, decide_eq_true_iff, ?_, ?_, ?_, ?_⟩ <;>
      simp only [headerSize, payloadOf, keyless, if_true, Nat.add_zero, length_cons,
        length_drop]
    · omega
    · rw [Nat.add_comm 2, List.take_succ_cons, List.take_succ_cons, cons_append,
        cons_append, List.take_append_drop]
    · omega
    · omega
  · have four : keyLength second = 4 := if_pos key
    rw [if_pos key]
    refine ⟨rfl, decide_eq_true_iff, ?_, ?_, ?_, ?_⟩ <;>
      simp only [headerSize, payloadOf, four, if_false, length_cons, length_xorKey,
        length_drop, OfNat.ofNat_ne_zero]
    · omega
    · have read : readBytes (first :: second :: rest) (2 + extended second) 4 =
          (rest.drop (extended second)).take 4 := by
        rw [readBytes_eq (by simp only [length_cons]; omega), Nat.add_comm 2]
        rfl
      have whole : announced second rest = (rest.drop (extended second + 4)).length := by
        rw [length_drop]
        omega
      have nothing : (first :: second :: rest).drop
          (2 + extended second + 4 + announced second rest) = [] :=
        List.drop_of_length_le (by simp only [length_cons]; omega)
      rw [read, nothing, List.append_nil,
        show 2 + extended second + 4 = extended second + 4 + 2 by omega, List.drop_succ_cons,
        List.drop_succ_cons, whole, List.take_length]
    · omega
    · omega

theorem Whole.length_front (whole : Whole frame) :
    (frame.take (headerSize frame)).length = headerSize frame := by
  have := whole.parts.payloadLength
  rw [List.length_take]
  omega

theorem Whole.length_data (whole : Whole frame) :
    (swWebSocketDecode frame).data.length = frame.length := by
  have parts := whole.parts
  rw [parts.data, length_append, whole.length_front, parts.payload, parts.payloadLength]

theorem dispatchContinuation_eq (whole : Whole frame) :
    dispatchContinuation pagesize maxLength (some str) (swWebSocketDecode frame) =
      if maxLength < str.content.length + (payloadOf frame).length then ⟨some str, [], false⟩ else
        let merged := (swStringAppendPtr pagesize str (payloadOf frame)
          (payloadOf frame).length).elim str Prod.fst
        if (swWebSocketDecode frame).frame.fin then ⟨none, [.dispatch merged.content], true⟩
        else ⟨some merged, [], true⟩ := by
  have parts := whole.parts
  have small := whole.small
  have size := whole.length_front
  have length := whole.length_data
  have offset : frame.length - (swWebSocketDecode frame).frame.payloadLength = headerSize frame := by
    have := parts.payloadLength
    omega
  have rest : frame.length - headerSize frame = (payloadOf frame).length := by
    have := parts.payloadLength
    have := parts.payload
    omega
  have narrow : (payloadOf frame).length < 2 ^ 31 := by omega
  simp only [dispatchContinuation, length, offset, rest, toInt_eq narrow]
  rw [parts.data, List.drop_left' size]

theorem drop_markHeader {front body : List UInt8} {n opcode : Nat} (size : front.length = n + 2) :
    (markHeader (front ++ body) n opcode).drop n = 1 :: UInt8.ofNat opcode :: body := by
  obtain ⟨a, b, last⟩ : ∃ a b, front.drop n = [a, b] := by
    have two : (front.drop n).length = 2 := by
      rw [length_drop]
      omega
    exact List.length_eq_two.mp two
  rw [markHeader, List.drop_set, List.drop_set, List.drop_append_of_le_length (by omega), last]
  simp

theorem dispatchFirst_eq (whole : Whole frame) : dispatchFirst buffer (swWebSocketDecode frame) =
      if (swWebSocketDecode frame).frame.fin then
        ⟨buffer, [.dispatch (1 :: UInt8.ofNat (opcodeOf frame) :: payloadOf frame)], true⟩
      else if buffer.isSome then ⟨buffer, [], false⟩ else
        ⟨some (swStringDup (1 :: UInt8.ofNat (opcodeOf frame) :: payloadOf frame)), [], true⟩ := by
  have parts := whole.parts
  have size := whole.length_front
  have length := whole.length_data
  have offset : frame.length - (swWebSocketDecode frame).frame.payloadLength - 2 =
      headerSize frame - 2 := by
    have := parts.payloadLength
    omega
  have message : (markHeader (swWebSocketDecode frame).data (headerSize frame - 2)
      (opcodeOf frame)).drop (headerSize frame - 2) =
        1 :: UInt8.ofNat (opcodeOf frame) :: payloadOf frame := by
    rw [parts.data]
    refine drop_markHeader ?_
    have := parts.header
    omega
  simp only [dispatchFirst, length, offset, parts.opcode, message]

theorem dispatch_other (whole : Whole frame) (opcode : 9 < opcodeOf frame) :
    swWebSocketDispatchFrame pagesize maxLength buffer frame = ⟨buffer, [], true⟩ := by
  rw [swWebSocketDispatchFrame]
  simp only [whole.parts.opcode]
  split
  any_goals omega
  rfl

theorem dispatch_ping (whole : Whole frame) (opcode : opcodeOf frame = 9) :
    swWebSocketDispatchFrame pagesize maxLength buffer frame =
      dispatchPing pagesize buffer (swWebSocketDecode frame) := by
  rw [swWebSocketDispatchFrame]
  simp only [whole.parts.opcode, opcode]

theorem dispatch_continuation (whole : Whole frame) (opcode : opcodeOf frame = 0) :
    swWebSocketDispatchFrame pagesize maxLength buffer frame =
      dispatchContinuation pagesize maxLength buffer (swWebSocketDecode frame) := by
  rw [swWebSocketDispatchFrame]
  simp only [whole.parts.opcode, opcode]

theorem dispatch_first (whole : Whole frame) (opcode : opcodeOf frame = 1 ∨ opcodeOf frame = 2) :
    swWebSocketDispatchFrame pagesize maxLength buffer frame =
      dispatchFirst buffer (swWebSocketDecode frame) := by
  rw [swWebSocketDispatchFrame]
  rcases opcode with opcode | opcode <;> simp only [whole.parts.opcode, opcode]

theorem encode_small {payload : List UInt8} (short : payload.length < 124) (opcode : Nat) :
    (swWebSocketEncode pagesize false ⟨[], 128⟩ payload opcode true false).elim []
      SwString.content = firstByte opcode true :: secondByte payload.length false :: payload := by
  have header : frameHeader payload.length opcode true false =
      [firstByte opcode true, secondByte payload.length false] := if_pos (by omega)
  have headed := append_all pagesize ⟨[], 128⟩ [firstByte opcode true, secondByte payload.length false]
    ⟨by simp, by simp⟩
  rw [swWebSocketEncode, header, headed]
  have fits : grown pagesize (@List.length UInt8 []) 128
      [firstByte opcode true, secondByte payload.length false].length = 128 := if_neg (by simp)
  simp only [Option.bind_some, fits, Bool.false_eq_true, if_false, nil_append]
  split
  · have filled := append_all pagesize
      ⟨[firstByte opcode true, secondByte payload.length false], 128⟩ payload
      ⟨by simp only [length_cons, List.length_nil]; omega,
        by simp only [length_cons, List.length_nil]; omega⟩
    rw [toInt_eq (by omega), filled]
    rfl
  · have empty : payload = [] := List.length_eq_zero_iff.mp (by omega)
    rw [empty]
    rfl

theorem pong_spec (payload : List UInt8) (short : payload.length < 124) :
    Whole (firstByte 10 true :: secondByte payload.length false :: payload) ∧
      opcodeOf (firstByte 10 true :: secondByte payload.length false :: payload) = 10 ∧
      payloadOf (firstByte 10 true :: secondByte payload.length false :: payload) = payload := by
  obtain ⟨low, -, key⟩ := toNat_secondByte (show payload.length < 128 by omega) false
  have keyless : keyLength (secondByte payload.length false) = 0 := key
  have format : extended (secondByte payload.length false) = 0 := by
    rw [extended, low, if_neg (by omega), if_neg (by omega)]
  have opcode : (firstByte 10 true).toNat % 16 = 10 := by decide
  refine ⟨⟨?_, ?_⟩, opcode, ?_⟩
  · rw [rfcLength, format, keyless, if_neg (by omega), announced, if_pos format, low]
    simp only [length_cons]
    congr 1
    omega
  · simp only [length_cons]
    omega
  · rw [payloadOf, format, keyless]
    rfl

/-- **A ping is answered, unless it is too long; and the answer is right only if the ping
has the plain header.** -/
theorem dispatchPing_spec (whole : Whole frame) :
    dispatchPing pagesize buffer (swWebSocketDecode frame) =
      (if 126 ≤ frame.length then ⟨buffer, [], false⟩
      else ⟨buffer, [.send (firstByte 10 true :: secondByte (frame.length - 2) false ::
        (swWebSocketDecode frame).data.drop 2)], true⟩) ∧ (frame.length < 126 →
      (Answers frame (firstByte 10 true :: secondByte (frame.length - 2) false ::
        (swWebSocketDecode frame).data.drop 2) ↔ headerSize frame = 2)) := by
  have parts := whole.parts
  have size := whole.length_front
  have length := whole.length_data
  have count : ((swWebSocketDecode frame).data.drop 2).length = frame.length - 2 := by
    rw [length_drop, length]
  constructor
  · rw [dispatchPing, length]
    by_cases long : 126 ≤ frame.length
    · rw [if_pos long, if_pos long]
    · have same : (if frame.length = 2 then [] else (swWebSocketDecode frame).data.drop 2) =
          (swWebSocketDecode frame).data.drop 2 := by
        split
        · exact (List.length_eq_zero_iff.mp (by omega)).symm
        · rfl
      rw [if_neg long, if_neg long]
      simp only [same]
      rw [encode_small (by omega), count]
  · intro short
    have spec := pong_spec ((swWebSocketDecode frame).data.drop 2) (by omega)
    rw [count] at spec
    obtain ⟨whole', opcode, payload⟩ := spec
    constructor
    · rintro ⟨-, -, same⟩
      rw [payload] at same
      have := congrArg List.length same
      have := parts.payloadLength
      have := parts.payload
      have := parts.header
      omega
    · intro plain
      refine ⟨whole', opcode, payload.trans ?_⟩
      rw [parts.data, List.drop_left' (by rw [size, plain])]

end

/-! ## Whole messages -/

variable {pagesize maxLength : Nat} {frame : List UInt8} {frames payloads : List (List UInt8)}
  {buffer : Option SwString} {str : SwString}

/-- The fragments stay within `package_max_length`, and a string of the length and size
takes them one after the other. -/
def Fits (pagesize maxLength : Nat) : Nat → Nat → List (List UInt8) → Prop
  | _, _, [] => True
  | length, size, payload :: rest =>
    length + payload.length ≤ maxLength ∧ Room length size payload.length ∧
      Fits pagesize maxLength (length + payload.length) (grown pagesize length size payload.length)
        rest

/-- A ping whose answer is right: its header has two bytes, and it is shorter than the
buffer for the answer. -/
def Plain (ping : List UInt8) : Prop := headerSize ping = 2 ∧ ping.length < 126

instance : DecidablePred Plain := fun _ => inferInstanceAs (Decidable (_ ∧ _))

structure Held (str : SwString) : Prop where
  inside : str.content.length ≤ str.size
  small : str.content.length < 2 ^ 31

theorem Held.append {payload : List UInt8} (room : Room str.content.length str.size payload.length) :
    Held ⟨str.content ++ payload, grown pagesize str.content.length str.size payload.length⟩ where
  inside := by
    simp only [length_append, grown, swooleSizeAlign]
    split <;> omega
  small := by
    rw [length_append]
    exact room.1

theorem Held.nonempty {payload : List UInt8} (held : Held str)
    (full : ¬ Room str.content.length str.size payload.length) : 0 < payload.length := by
  obtain ⟨inside, small⟩ := held
  unfold Room at full
  omega

theorem merged_cases (pagesize : Nat) (str : SwString) (payload : List UInt8) :
    (Room str.content.length str.size payload.length ∧
      (swStringAppendPtr pagesize str payload payload.length).elim str Prod.fst =
        ⟨str.content ++ payload, grown pagesize str.content.length str.size payload.length⟩) ∨
    (¬ Room str.content.length str.size payload.length ∧
      (swStringAppendPtr pagesize str payload payload.length).elim str Prod.fst = str) := by
  by_cases room : Room str.content.length str.size payload.length
  · rw [append_all pagesize str payload room]
    exact .inl ⟨room, rfl⟩
  · refine .inr ⟨room, ?_⟩
    cases result : swStringAppendPtr pagesize str payload payload.length with
    | none => rfl
    | some pair =>
      obtain ⟨str', moved⟩ := pair
      have spec := (append_some.mp result).2.1
      rw [Int.toNat_natCast] at spec
      exact absurd spec room

theorem messages_append (first second : List Output) :
    messages (first ++ second) = messages first ++ messages second := List.filterMap_append

theorem answers_append (first second : List Output) :
    answers (first ++ second) = answers first ++ answers second := List.filterMap_append

theorem run_cons_ok {outputs : List Output} {after : Option SwString}
    (step : swWebSocketDispatchFrame pagesize maxLength buffer frame = ⟨after, outputs, true⟩) :
    run pagesize maxLength buffer (frame :: frames) =
      outputs ++ run pagesize maxLength after frames := by
  rw [run, step]
  rfl

theorem run_cons_error {outputs : List Output} {after : Option SwString}
    (step : swWebSocketDispatchFrame pagesize maxLength buffer frame = ⟨after, outputs, false⟩) :
    run pagesize maxLength buffer (frame :: frames) = outputs := by
  rw [run, step]
  rfl

theorem control_cases (whole : Whole frame) (opcode : 9 ≤ opcodeOf frame) : (opcodeOf frame ≠ 9 ∧
      swWebSocketDispatchFrame pagesize maxLength buffer frame = ⟨buffer, [], true⟩) ∨
    (opcodeOf frame = 9 ∧ 126 ≤ frame.length ∧
      swWebSocketDispatchFrame pagesize maxLength buffer frame = ⟨buffer, [], false⟩) ∨
    (opcodeOf frame = 9 ∧ frame.length < 126 ∧ ∃ pong,
      swWebSocketDispatchFrame pagesize maxLength buffer frame = ⟨buffer, [.send pong], true⟩ ∧
      (Answers frame pong ↔ headerSize frame = 2)) := by
  by_cases ping : opcodeOf frame = 9
  · obtain ⟨result, right⟩ := @dispatchPing_spec pagesize frame buffer whole
    rw [dispatch_ping whole ping, result]
    by_cases long : 126 ≤ frame.length
    · exact .inr (.inl ⟨ping, long, if_pos long⟩)
    · exact .inr (.inr ⟨ping, by omega, _, if_neg long, right (by omega)⟩)
  · exact .inl ⟨ping, dispatch_other whole (by omega)⟩

def merged (pagesize : Nat) (str : SwString) (payload : List UInt8) : SwString :=
  (swStringAppendPtr pagesize str payload payload.length).elim str Prod.fst

theorem length_merged_le (pagesize : Nat) (str : SwString) (payload : List UInt8) :
    (merged pagesize str payload).content.length ≤ str.content.length + payload.length := by
  rcases merged_cases pagesize str payload with ⟨-, same⟩ | ⟨-, same⟩
  · rw [merged, same, length_append]
  · rw [merged, same]
    omega

theorem continuation_cases (whole : Whole frame) (opcode : opcodeOf frame = 0) :
    (maxLength < str.content.length + (payloadOf frame).length ∧
      swWebSocketDispatchFrame pagesize maxLength (some str) frame = ⟨some str, [], false⟩) ∨
    (str.content.length + (payloadOf frame).length ≤ maxLength ∧
      (IsFinal frame → swWebSocketDispatchFrame pagesize maxLength (some str) frame =
        ⟨none, [.dispatch (merged pagesize str (payloadOf frame)).content], true⟩) ∧
      (¬ IsFinal frame → swWebSocketDispatchFrame pagesize maxLength (some str) frame =
        ⟨some (merged pagesize str (payloadOf frame)), [], true⟩)) := by
  rw [dispatch_continuation whole opcode, dispatchContinuation_eq whole]
  by_cases tooLong : maxLength < str.content.length + (payloadOf frame).length
  · exact .inl ⟨tooLong, if_pos tooLong⟩
  · rw [if_neg tooLong]
    exact .inr ⟨by omega, fun final => if_pos (whole.parts.fin.mpr final),
      fun more => if_neg fun fin => more (whole.parts.fin.mp fin)⟩

theorem length_messages_le (continues : Continues frames payloads) (str : SwString) :
    ∀ message ∈ messages (run pagesize maxLength (some str) frames),
      message.length ≤ str.content.length + payloads.flatten.length := by
  induction continues generalizing str with
  | @last frame whole opcode final =>
    intro message mem
    rcases @continuation_cases pagesize maxLength _ str whole opcode with
      ⟨-, step⟩ | ⟨-, step, -⟩
    · rw [run_cons_error step] at mem
      exact absurd mem not_mem_nil
    · rw [run_cons_ok (step final), run] at mem
      have same : message = (merged pagesize str (payloadOf frame)).content := by
        simpa [messages] using mem
      have le := length_merged_le pagesize str (payloadOf frame)
      rw [same]
      simpa only [flatten_cons, List.flatten_nil, List.append_nil] using le
  | @more frame frames payloads whole opcode final rest ih =>
    intro message mem
    rcases @continuation_cases pagesize maxLength _ str whole opcode with
      ⟨-, step⟩ | ⟨-, -, step⟩
    · rw [run_cons_error step] at mem
      exact absurd mem not_mem_nil
    · rw [run_cons_ok (step final)] at mem
      have le := ih (merged pagesize str (payloadOf frame)) message mem
      have le' := length_merged_le pagesize str (payloadOf frame)
      rw [flatten_cons, length_append]
      omega
  | control whole opcode rest ih =>
    intro message mem
    rcases @control_cases pagesize maxLength _ (some str) whole opcode with
      ⟨-, step⟩ | ⟨-, -, step⟩ | ⟨-, -, pong, step, -⟩
    · rw [run_cons_ok step] at mem
      exact ih str message mem
    · rw [run_cons_error step] at mem
      exact absurd mem not_mem_nil
    · rw [run_cons_ok step, messages_append] at mem
      exact ih str message mem

theorem pings_cons_ping (ping : opcodeOf frame = 9) : pings (frame :: frames) = frame :: pings frames :=
  List.filter_cons_of_pos (by simpa using ping)

theorem pings_cons_other (other : opcodeOf frame ≠ 9) : pings (frame :: frames) = pings frames :=
  List.filter_cons_of_neg (by simpa using other)

theorem continues_iff (continues : Continues frames payloads) (held : Held str) :
    (messages (run pagesize maxLength (some str) frames) = [str.content ++ payloads.flatten] ∧
      List.Forall₂ Answers (pings frames) (answers (run pagesize maxLength (some str) frames))) ↔
    Fits pagesize maxLength str.content.length str.size payloads ∧
      ∀ ping ∈ pings frames, Plain ping := by
  induction continues generalizing str with
  | @last frame whole opcode final =>
    have none : pings [frame] = [] := (pings_cons_other (by omega)).trans rfl
    rcases @continuation_cases pagesize maxLength _ str whole opcode with
      ⟨tooLong, step⟩ | ⟨within, step, -⟩
    · rw [run_cons_error step]
      constructor
      · rintro ⟨impossible, -⟩
        exact absurd impossible (by simp [messages])
      · rintro ⟨⟨le, -⟩, -⟩
        omega
    · rw [run_cons_ok (step final), run, none]
      rcases merged_cases pagesize str (payloadOf frame) with ⟨room, same⟩ | ⟨full, same⟩
      · rw [merged, same]
        exact iff_of_true ⟨by simp [messages], by simp [answers]⟩
          ⟨⟨within, room, trivial⟩, fun ping mem => absurd mem not_mem_nil⟩
      · rw [merged, same]
        refine iff_of_false ?_ fun both => full both.1.2.1
        rintro ⟨handed, -⟩
        have whole : str.content = str.content ++ [payloadOf frame].flatten :=
          (List.cons.inj handed).1
        have length := congrArg List.length whole
        have nonempty := held.nonempty full
        simp only [length_append, flatten_cons, List.flatten_nil, List.append_nil]
          at length
        omega
  | @more frame frames payloads whole opcode final rest ih =>
    rw [pings_cons_other (show opcodeOf frame ≠ 9 by omega), flatten_cons]
    rcases @continuation_cases pagesize maxLength _ str whole opcode with
      ⟨tooLong, step⟩ | ⟨within, -, step⟩
    · rw [run_cons_error step]
      constructor
      · rintro ⟨impossible, -⟩
        exact absurd impossible (by simp [messages])
      · rintro ⟨⟨le, -⟩, -⟩
        omega
    · rw [run_cons_ok (step final), nil_append, ← List.append_assoc]
      rcases merged_cases pagesize str (payloadOf frame) with ⟨room, same⟩ | ⟨full, same⟩
      · rw [merged, same]
        refine (ih (Held.append room)).trans (and_congr_left' ?_)
        rw [Fits, length_append]
        exact ⟨fun fits => ⟨within, room, fits⟩, fun fits => fits.2.2⟩
      · -- without the payload the message is too short
        rw [merged, same]
        refine iff_of_false ?_ fun both => full both.1.2.1
        rintro ⟨handed, -⟩
        have le := length_messages_le rest str _ (by
          rw [handed]
          exact List.mem_singleton_self _)
        have nonempty := held.nonempty full
        simp only [length_append] at le
        omega
  | @control frame frames payloads whole opcode rest ih =>
    rcases @control_cases pagesize maxLength _ (some str) whole opcode with
      ⟨other, step⟩ | ⟨ping, long, step⟩ | ⟨ping, short, pong, step, right⟩
    · rw [run_cons_ok step, pings_cons_other other]
      exact ih held
    · rw [run_cons_error step, pings_cons_ping ping]
      refine iff_of_false (fun both => absurd both.1 (by simp [messages])) fun both => ?_
      have := (both.2 frame (.head _)).2
      omega
    · rw [run_cons_ok step, messages_append, answers_append, pings_cons_ping ping]
      have handed : messages [.send pong] = [] := rfl
      have sent : answers [.send pong] = [pong] := rfl
      rw [handed, sent, nil_append, List.singleton_append, List.forall₂_cons,
        List.forall_mem_cons, right]
      have := ih held
      unfold Plain
      constructor
      · rintro ⟨message, plain, others⟩
        obtain ⟨fits, plains⟩ := this.mp ⟨message, others⟩
        exact ⟨fits, ⟨plain, short⟩, plains⟩
      · rintro ⟨fits, ⟨plain, -⟩, plains⟩
        obtain ⟨message, others⟩ := this.mpr ⟨fits, plains⟩
        exact ⟨message, plain, others⟩

/-- The fragments of a message fit: a message of one frame always, another one behind its
flag and opcode. -/
def MessageFits (pagesize maxLength : Nat) : List (List UInt8) → Prop
  | first :: second :: rest =>
    Fits pagesize maxLength (first.length + 2) (first.length + 3) (second :: rest)
  | _ => True

theorem Continues.exists_cons (continues : Continues frames payloads) :
    ∃ payload rest, payloads = payload :: rest := by
  induction continues with
  | last => exact ⟨_, _, rfl⟩
  | more => exact ⟨_, _, rfl⟩
  | control _ _ _ ih => exact ih

/-- **A message is delivered, and its pings are answered, exactly when its fragments fit
and its pings have the plain header and are short.** -/
theorem delivered_iff (pagesize maxLength : Nat) (message : Message frames payloads) :
    Delivered frames payloads (run pagesize maxLength none frames) ↔
      MessageFits pagesize maxLength payloads ∧ ∀ ping ∈ pings frames, Plain ping := by
  cases message with
  | @single frame whole opcode final =>
    have fin : (swWebSocketDecode frame).frame.fin = true := whole.parts.fin.mpr final
    have step : swWebSocketDispatchFrame pagesize maxLength none frame =
        ⟨none, [.dispatch (1 :: UInt8.ofNat (opcodeOf frame) :: payloadOf frame)], true⟩ := by
      rw [dispatch_first whole opcode, dispatchFirst_eq whole, if_pos fin]
    have none : pings [frame] = [] := (pings_cons_other (by omega)).trans rfl
    rw [Delivered, run_cons_ok step, run, none]
    exact iff_of_true ⟨by simp [messages], by simp [answers]⟩
      ⟨trivial, fun ping member => absurd member not_mem_nil⟩
  | @fragmented frame frames payloads whole opcode final rest =>
    have fin : ¬ (swWebSocketDecode frame).frame.fin = true := fun fin =>
      final (whole.parts.fin.mp fin)
    have step : swWebSocketDispatchFrame pagesize maxLength none frame =
        ⟨some (swStringDup (1 :: UInt8.ofNat (opcodeOf frame) :: payloadOf frame)), [], true⟩ := by
      rw [dispatch_first whole opcode, dispatchFirst_eq whole, if_neg fin]
      rfl
    obtain ⟨payload, others, rfl⟩ := rest.exists_cons
    have small := whole.small
    have length := whole.parts.payloadLength
    have payloadLength := whole.parts.payload
    have header := whole.parts.header
    have held : Held (swStringDup (1 :: UInt8.ofNat (opcodeOf frame) :: payloadOf frame)) :=
      ⟨Nat.le_succ _, by simp only [swStringDup, length_cons]; omega⟩
    rw [Delivered, run_cons_ok step, nil_append, pings_cons_other (by omega),
      List.headD_cons, flatten_cons, ← cons_append, ← cons_append]
    exact continues_iff rest held

theorem delivered_ping :
    Delivered [[0x01, 1, 0x61], [0x89, 1, 0x70], [0x80, 1, 0x62]] [[0x61], [0x62]]
      (run 4096 2097152 none [[0x01, 1, 0x61], [0x89, 1, 0x70], [0x80, 1, 0x62]]) :=
  (delivered_iff 4096 2097152 (.fragmented ⟨by decide, by decide⟩ (.inl rfl) (by decide)
    (.control ⟨by decide, by decide⟩ (by decide)
      (.last ⟨by decide, by decide⟩ rfl (by decide))))).mpr
    ⟨⟨by decide, ⟨by decide, by decide⟩, trivial⟩, by decide⟩

/-- A masked ping without a payload between the two frames of a text is answered with its
key. -/
theorem not_delivered_maskedPing :
    Message [[0x01, 1, 0x61], [0x89, 0x80, 1, 2, 3, 4], [0x80, 1, 0x62]] [[0x61], [0x62]] ∧
      ¬ Delivered [[0x01, 1, 0x61], [0x89, 0x80, 1, 2, 3, 4], [0x80, 1, 0x62]] [[0x61], [0x62]]
        (run 4096 2097152 none [[0x01, 1, 0x61], [0x89, 0x80, 1, 2, 3, 4], [0x80, 1, 0x62]]) := by
  constructor
  · exact .fragmented ⟨by decide, by decide⟩ (.inl rfl) (by decide)
      (.control ⟨by decide, by decide⟩ (by decide)
        (.last ⟨by decide, by decide⟩ rfl (by decide)))
  · rintro ⟨-, answered⟩
    have sent : answers (run 4096 2097152 none
        [[0x01, 1, 0x61], [0x89, 0x80, 1, 2, 3, 4], [0x80, 1, 0x62]]) =
          [[0x8a, 4, 1, 2, 3, 4]] := by decide
    have asked : pings [[0x01, 1, 0x61], [0x89, 0x80, 1, 2, 3, 4], [0x80, 1, 0x62]] =
        [[0x89, 0x80, 1, 2, 3, 4]] := by decide
    rw [sent, asked, List.forall₂_cons] at answered
    exact absurd answered.1.2.2 (by decide)

end PhpExts.Swoole.WebSocket
