import PhpExts.Msgpack.Format
import PhpExts.Msgpack.Bounds

/-!
# The parser on a well-formed object

From a header state whose position is at the encoding of an object, the parser
makes the calls `Msg.eval` lists and arrives at `_push` with the object they
build, at the last byte of the encoding (`leads_msg`). The stack is as it was
before, and each state on the way that reads a header `0xd9` does so at the
start of one of the object's spans.
-/

namespace PhpExts.Msgpack

open PhpExts.Zend PhpExts.Library
open List (length_append length_cons length_nil)
open Prog (returns_bind returns_pure returns_read returns_update returns_zoom)

variable {φ τ υ ο : Type}

/-! ## Runs of steps -/

/-- A run of steps whose last step ends at `label`; every step starts in a state
that satisfies `P`. -/
inductive Leads (cb : Callbacks φ τ υ ο) (data : Bytes) (P : Context υ ο → Prop) :
    Context υ ο → Label → Context υ ο → Prop where
  | last {s s' : Context υ ο} {label : Label} (here : P s)
      (step : Prog.Returns (step cb data) s label s') : Leads cb data P s label s'
  | next {s s' s'' : Context υ ο} {label : Label} (here : P s)
      (step : Prog.Returns (step cb data) s .again s') (rest : Leads cb data P s' label s'') :
      Leads cb data P s label s''

variable {cb : Callbacks φ τ υ ο} {data : Bytes} {P : Context υ ο → Prop}

theorem Leads.trans {s s' s'' : Context υ ο} {label : Label}
    (first : Leads cb data P s .again s') (second : Leads cb data P s' label s'') :
    Leads cb data P s label s'' := by
  generalize again : Label.again = label' at first
  induction first with
  | last here step => exact .next here (again ▸ step) second
  | next here step _ ih => exact .next here step (ih second again)

/-- The bytes `bytes` are found at the position `i`. -/
def At (data : Bytes) (i : Nat) (bytes : Bytes) : Prop :=
  ∃ pre post, data = pre ++ (bytes ++ post) ∧ pre.length = i

variable {i : Nat}

theorem At.left {xs ys : Bytes} (found : At data i (xs ++ ys)) : At data i xs := by
  obtain ⟨pre, post, rfl, rfl⟩ := found
  exact ⟨pre, ys ++ post, by simp, rfl⟩

theorem At.right {xs ys : Bytes} (found : At data i (xs ++ ys)) : At data (i + xs.length) ys := by
  obtain ⟨pre, post, rfl, rfl⟩ := found
  exact ⟨pre ++ xs, post, by simp, by simp⟩

theorem At.le {xs : Bytes} (found : At data i xs) : i + xs.length ≤ data.length := by
  obtain ⟨pre, post, rfl, rfl⟩ := found
  simp only [length_append]
  omega

theorem At.head {byte : UInt8} {rest : Bytes} (found : At data i (byte :: rest)) :
    data[i]? = some byte := by
  obtain ⟨pre, post, rfl, rfl⟩ := found
  simp

theorem At.tail {byte : UInt8} {rest : Bytes} (found : At data i (byte :: rest)) :
    At data (i + 1) rest := by
  have split : At data i ([byte] ++ rest) := found
  exact split.right

theorem returns_readByte {byte : UInt8} (found : data[i]? = some byte)
    {s : Context υ ο} : Prog.Returns (readByte data i : Machine φ τ υ ο UInt8) s byte s := by
  simp [readByte, found]

theorem returns_readBytes {bytes : Bytes} (found : At data i bytes) {s : Context υ ο} :
    Prog.Returns (readBytes data i bytes.length : Machine φ τ υ ο Bytes) s bytes s := by
  induction bytes generalizing i with
  | nil => simp [readBytes]
  | cons byte rest ih =>
    simp only [length_cons, readBytes, returns_bind, returns_pure]
    exact ⟨byte, s, returns_readByte found.head, rest, s, ih found.tail, rfl, rfl⟩

theorem returns_load {k n : Nat} (found : At data i (bigEndian k n)) (fits : n < 256 ^ k)
    {s : Context υ ο} : Prog.Returns (load data i k : Machine φ τ υ ο Nat) s n s := by
  have read := returns_readBytes (φ := φ) (τ := τ) found (s := s)
  rw [length_bigEndian] at read
  simp only [load, returns_bind, returns_pure]
  exact ⟨_, s, read, (ofBigEndian_bigEndian_of_lt fits).symm, rfl⟩

section

variable {s s' : Context υ ο} {label : Label}

theorem returns_step_header {byte : UInt8} (state : s.cs = .header) (found : data[s.p]? = some byte)
    (run : Prog.Returns (header cb data byte.toNat) s label s') :
    Prog.Returns (step cb data) s label s' := by
  have less : s.p < data.length := (List.getElem?_eq_some_iff.mp found).1
  simp only [step, returns_bind, returns_read]
  refine ⟨s, s, ⟨rfl, rfl⟩, ?_⟩
  rw [if_neg (by omega), if_pos state]
  exact Prog.returns_bind.mpr ⟨byte, s, returns_readByte found, run⟩

theorem returns_step_trailed (size : data.length < 2 ^ 64) (state : s.cs ≠ .header)
    (pos : 0 < s.trail) (bound : s.trail < 2 ^ 32) (inside : s.p + s.trail ≤ data.length)
    (run : Prog.Returns (trailed cb data s.cs s.trail s.p) { s with p := s.p + s.trail - 1 }
      label s') :
    Prog.Returns (step cb data) s label s' := by
  simp only [step, returns_bind, returns_read]
  refine ⟨s, s, ⟨rfl, rfl⟩, ?_⟩
  have left : WordSize.eight.sub data.length s.p = data.length - s.p :=
    WordSize.sub_eq (by omega) size
  rw [if_neg (by omega), if_neg state]
  simp only [fixedTrail, returns_bind, returns_read]
  refine ⟨s, s, ⟨rfl, rfl⟩, ?_⟩
  rw [left, if_neg (by omega), trailLess_of_pos pos bound]
  simp only [moveTo, returns_bind, returns_update]
  refine ⟨(), _, rfl, ?_⟩
  rwa [show s.p + (s.trail - 1) = s.p + s.trail - 1 by omega]

end

/-! ## Arriving at an object -/

/-- A state that reads a header `0xd9` is at the start of a span of `spans`, and a
state that waits does so for some bytes. -/
structure Spanned (data : Bytes) (spans : List (Nat × Nat)) (s : Context υ ο) : Prop where
  start : s.cs = .header → data[s.p]? = some 0xd9 → ∃ stop, (s.p, stop) ∈ spans
  waits : s.cs ≠ .header → 0 < s.trail

/-- From `s` the parser arrives at the program `m`, at the byte before `stop`,
with the given stack and the callbacks' state `u`. -/
def LeadsTo (cb : Callbacks φ τ υ ο) (data : Bytes) (spans : List (Nat × Nat)) (s : Context υ ο)
    (stack : List (Stack ο)) (stop : Nat) (u : υ) (m : Machine φ τ υ ο Label) : Prop :=
  ∃ s₁ : Context υ ο, s₁.p + 1 = stop ∧ s₁.stack = stack ∧ s₁.user = u ∧
    ∀ label s', Prog.Returns m s₁ label s' → Leads cb data (Spanned data spans) s label s'

/-- From `s` the parser arrives at `_push` with `obj`, at the byte before `stop`,
with the stack of `s` and the callbacks' state `u`. -/
abbrev Arrives (cb : Callbacks φ τ υ ο) (data : Bytes) (spans : List (Nat × Nat)) (s : Context υ ο)
    (stop : Nat) (obj : ο) (u : υ) : Prop :=
  LeadsTo cb data spans s s.stack stop u (push cb s.stack obj)

section

variable {spans : List (Nat × Nat)} {s s' : Context υ ο} {obj : ο} {u : υ} {label : Label}

theorem returns_pushValue {value : Value} (made : Prog.Returns (cb.value value) s.user obj u)
    (run : Prog.Returns (push cb s.stack obj) { s with user := u } label s') :
    Prog.Returns (pushValue cb value) s label s' := by
  simp only [pushValue, call, pushObject, returns_bind, returns_zoom, returns_read]
  exact ⟨obj, _, ⟨u, made, rfl⟩, _, _, ⟨rfl, rfl⟩, run⟩

theorem spanned_of_other (other : s.cs ≠ .header) (waits : 0 < s.trail) : Spanned data spans s :=
  ⟨fun state => absurd state other, fun _ => waits⟩

theorem spanned_of_byte {byte : UInt8} (state : s.cs = .header) (found : data[s.p]? = some byte)
    (other : byte ≠ 0xd9) : Spanned data spans s := by
  refine ⟨fun _ raw => ?_, fun no => absurd state no⟩
  rw [found] at raw
  exact absurd (Option.some.inj raw) other

theorem toNat_fixByte {n : Nat} (small : n < 256) : (UInt8.ofNat n).toNat = n :=
  UInt8.toNat_ofNat_of_lt' small

theorem fixByte_ne {n : Nat} (small : n < 256) (other : n ≠ 0xd9) : UInt8.ofNat n ≠ 0xd9 :=
  fun same => other ((toNat_fixByte small).symm.trans (congrArg UInt8.toNat same))

theorem arrives_header {byte : UInt8} {value : Value} (state : s.cs = .header)
    (found : data[s.p]? = some byte) (other : byte ≠ 0xd9)
    (run : header cb data byte.toNat = pushValue cb value)
    (made : Prog.Returns (cb.value value) s.user obj u) : Arrives cb data spans s (s.p + 1) obj u :=
  ⟨{ s with user := u }, rfl, rfl, rfl, fun _ _ pushed =>
    .last (spanned_of_byte state found other)
      (returns_step_header state found (by rw [run]; exact returns_pushValue made pushed))⟩

theorem leads_againFixedTrail {byte : UInt8} {cs : UnpackState} {trail : Nat}
    (state : s.cs = .header) (found : data[s.p]? = some byte) (other : byte ≠ 0xd9)
    (run : header cb data byte.toNat = againFixedTrail cs trail) :
    Leads cb data (Spanned data spans) s .again { s with cs := cs, trail := trail, p := s.p + 1 } :=
  .last (spanned_of_byte state found other) (returns_step_header state found (by
    rw [run]
    simp only [againFixedTrail, returns_bind, returns_update, returns_pure]
    exact ⟨(), _, rfl, trivial, rfl⟩))

theorem LeadsTo.after {s₀ : Context υ ο} {stop : Nat} {stack : List (Stack ο)}
    {m : Machine φ τ υ ο Label} (rest : LeadsTo cb data spans s stack stop u m)
    (first : Leads cb data (Spanned data spans) s₀ .again s) :
    LeadsTo cb data spans s₀ stack stop u m := by
  obtain ⟨s₁, position, stack, user, leads⟩ := rest
  exact ⟨s₁, position, stack, user, fun label s' run => first.trans (leads label s' run)⟩

theorem arrives_body (size : data.length < 2 ^ 64) {bytes : Bytes} (value : Bytes → Value)
    (run : ∀ n, trailed cb data s.cs s.trail n =
      readBytes data n s.trail >>= fun bytes => pushValue cb (value bytes))
    (state : s.cs ≠ .header) (waits : s.trail = bytes.length) (pos : bytes ≠ [])
    (bound : bytes.length < 2 ^ 32) (found : At data s.p bytes)
    (made : Prog.Returns (cb.value (value bytes)) s.user obj u) :
    Arrives cb data spans s (s.p + bytes.length) obj u := by
  have positive : 0 < bytes.length := List.length_pos_iff.mpr pos
  refine ⟨{ s with p := s.p + s.trail - 1, user := u }, by simp only; omega, rfl, rfl,
    fun label s' pushed => .last (spanned_of_other state (by omega))
      (returns_step_trailed size state (by omega) (by omega) (by rw [waits]; exact found.le) ?_)⟩
  rw [run, returns_bind]
  refine ⟨bytes, { s with p := s.p + s.trail - 1 }, ?_,
    returns_pushValue (s := { s with p := s.p + s.trail - 1 }) made pushed⟩
  have read := returns_readBytes (φ := φ) (τ := τ) found (s := { s with p := s.p + s.trail - 1 })
  rwa [← waits] at read

theorem arrives_length (size : data.length < 2 ^ 64) {k : Nat} {bytes : Bytes}
    (next : UnpackState) (value : Bytes → Value) (run : ∀ n, trailed cb data s.cs s.trail n =
      load data n k >>= fun length => againUnlessZero cb next length (value []))
    (body : ∀ n length, trailed cb data next length n =
      readBytes data n length >>= fun bytes => pushValue cb (value bytes))
    (state : s.cs ≠ .header) (nextState : next ≠ .header) (waits : s.trail = k) (pos : 0 < k)
    (small : k ≤ 4) (fits : bytes.length < 256 ^ k)
    (found : At data s.p (bigEndian k bytes.length ++ bytes))
    (made : Prog.Returns (cb.value (value bytes)) s.user obj u) :
    Arrives cb data spans s (s.p + k + bytes.length) obj u := by
  have here := found.left
  have there := found.right
  rw [length_bigEndian] at there
  have inside := here.le
  rw [length_bigEndian] at inside
  have bound : bytes.length < 2 ^ 32 :=
    Nat.lt_of_lt_of_le fits (Nat.pow_le_pow_right (by decide : 0 < 256) small)
  have stepped {label : Label} {s' : Context υ ο}
      (rest : Prog.Returns (againUnlessZero cb next bytes.length (value []))
        { s with p := s.p + s.trail - 1 } label s') :
      Leads cb data (Spanned data spans) s label s' := by
    refine .last (spanned_of_other state (by omega)) (returns_step_trailed size state (by omega)
      (by omega) (by rw [waits]; exact inside) ?_)
    rw [run, returns_bind]
    exact ⟨bytes.length, _, returns_load here fits, rest⟩
  cases bytes with
  | nil =>
    refine ⟨{ s with p := s.p + s.trail - 1, trail := 0, user := u }, by
      simp only [length_nil]
      omega, rfl, rfl, fun label s' pushed => stepped ?_⟩
    simp only [againUnlessZero, length_nil, if_true, returns_bind,
      returns_update]
    exact ⟨(), _, rfl, returns_pushValue
      (s := { s with p := s.p + s.trail - 1, trail := 0 }) made pushed⟩
  | cons byte rest =>
    have again : Leads cb data (Spanned data spans) s .again
        { s with p := s.p + k, cs := next, trail := (byte :: rest).length } := by
      refine stepped ?_
      rw [againUnlessZero, if_neg (by simp)]
      simp only [againFixedTrail, returns_bind, returns_update, returns_pure]
      refine ⟨(), _, rfl, trivial, ?_⟩
      rw [show s.p + s.trail - 1 + 1 = s.p + k by omega]
    have arrived : Arrives cb data spans
        { s with p := s.p + k, cs := next, trail := (byte :: rest).length }
        (s.p + k + (byte :: rest).length) obj u :=
      arrives_body size value (body · _) nextState rfl (by simp) bound there made
    exact arrived.after again

def NumberType.cs : NumberType → UnpackState
  | .float => .float | .double => .double
  | .uint8 => .uint8 | .uint16 => .uint16 | .uint32 => .uint32 | .uint64 => .uint64
  | .int8 => .int8 | .int16 => .int16 | .int32 => .int32 | .int64 => .int64

theorem arrives_number (size : data.length < 2 ^ 64) {t : NumberType} {bits : Nat}
    (fits : bits < 256 ^ t.width) (state : s.cs = .header)
    (found : At data s.p (t.header :: bigEndian t.width bits))
    (made : Prog.Returns (cb.value (t.value bits)) s.user obj u) :
    Arrives cb data spans s (s.p + (1 + t.width)) obj u := by
  have run : header cb data t.header.toNat = againFixedTrail t.cs t.width := by cases t <;> rfl
  have body : ∀ trail n, trailed cb data t.cs trail n =
      load data n t.width >>= fun bits => pushValue cb (t.value bits) := by
    intro trail n
    cases t <;> rfl
  have pos : 0 < t.width := by cases t <;> decide
  have small : t.width ≤ 8 := by cases t <;> decide
  have inside := found.tail.le
  rw [length_bigEndian] at inside
  have again : Leads cb data (Spanned data spans) s .again
      { s with cs := t.cs, trail := t.width, p := s.p + 1 } :=
    leads_againFixedTrail state found.head (by cases t <;> decide) run
  have rest : Arrives cb data spans { s with cs := t.cs, trail := t.width, p := s.p + 1 }
      (s.p + (1 + t.width)) obj u := by
    refine ⟨{ s with cs := t.cs, trail := t.width, p := s.p + 1 + t.width - 1, user := u },
      by simp only; omega, rfl, rfl, fun label s' pushed => ?_⟩
    refine .last (spanned_of_other (by cases t <;> simp [NumberType.cs]) pos)
      (returns_step_trailed size (by cases t <;> simp [NumberType.cs]) pos
        (Nat.lt_of_le_of_lt small (by decide)) inside ?_)
    rw [body, returns_bind]
    exact ⟨bits, _, returns_load found.tail fits, returns_pushValue
      (s := { s with cs := t.cs, trail := t.width, p := s.p + 1 + t.width - 1 }) made pushed⟩
  exact rest.after again

theorem arrives_sized (size : data.length < 2 ^ 64) {k : Nat} {byte : UInt8} {bytes : Bytes}
    {cs next : UnpackState} {value : Bytes → Value} (pos : 0 < k) (small : k ≤ 4)
    (fits : bytes.length < 256 ^ k) (state : s.cs = .header)
    (found : At data s.p (byte :: bigEndian k bytes.length ++ bytes)) (other : byte ≠ 0xd9)
    (header : header cb data byte.toNat = againFixedTrail cs k) (wait : cs ≠ .header)
    (wait' : next ≠ .header) (run : ∀ n, trailed cb data cs k n =
      load data n k >>= fun length => againUnlessZero cb next length (value []))
    (body : ∀ n length, trailed cb data next length n =
      readBytes data n length >>= fun bytes => pushValue cb (value bytes))
    (made : Prog.Returns (cb.value (value bytes)) s.user obj u) :
    Arrives cb data spans s (s.p + (byte :: bigEndian k bytes.length ++ bytes).length) obj u := by
  have arrived : Arrives cb data spans { s with cs := cs, trail := k, p := s.p + 1 }
      (s.p + 1 + k + bytes.length) obj u :=
    arrives_length size next value run body wait wait' rfl pos small fits found.tail made
  have total : s.p + 1 + k + bytes.length =
      s.p + (byte :: bigEndian k bytes.length ++ bytes).length := by
    simp only [List.cons_append, length_cons, length_append, length_bigEndian]
    omega
  rw [total] at arrived
  exact arrived.after (leads_againFixedTrail state found.head other header)

theorem arrives_raw (size : data.length < 2 ^ 64) {w : RawWidth} {bytes : Bytes}
    (fits : bytes.length < w.limit) (state : s.cs = .header)
    (found : At data s.p (w.header bytes.length ++ bytes)) (nonempty : w = .w8 → bytes ≠ [])
    (spanned : w = .w8 → (s.p, s.p + 2 + bytes.length) ∈ spans)
    (made : Prog.Returns (cb.value (.raw bytes)) s.user obj u) :
    Arrives cb data spans s (s.p + (w.header bytes.length ++ bytes).length) obj u := by
  cases w with
  | fix =>
    have fits : bytes.length < 32 := fits
    have byte : (UInt8.ofNat (0xa0 + bytes.length)).toNat = 0xa0 + bytes.length :=
      toNat_fixByte (by omega)
    have other : UInt8.ofNat (0xa0 + bytes.length) ≠ 0xd9 := fixByte_ne (by omega) (by omega)
    have opened : ∀ n, n = bytes.length → header cb data (0xa0 + n) =
        if n = 0 then do
          Prog.update fun s => { s with trail := 0 }
          pushValue cb (.raw [])
        else againFixedTrail .rawValue n := by
      intro n same
      have rest : (0xa0 + n) % 32 = n := by omega
      unfold header
      rw [if_neg (by omega), if_neg (by omega), if_neg (by omega), if_pos (by omega), rest]
    cases bytes with
    | nil =>
      refine ⟨{ s with trail := 0, user := u }, rfl, rfl, rfl, fun label s' pushed => ?_⟩
      refine .last (spanned_of_byte state found.head other)
        (returns_step_header state found.head ?_)
      rw [byte, opened _ rfl, if_pos length_nil]
      simp only [returns_bind, returns_update]
      exact ⟨(), _, rfl, returns_pushValue (s := { s with trail := 0 }) made pushed⟩
    | cons byte' rest =>
      have run : header cb data (UInt8.ofNat (0xa0 + (byte' :: rest).length)).toNat =
          againFixedTrail .rawValue (byte' :: rest).length := by
        rw [byte, opened _ rfl, if_neg (by simp)]
      have body : Arrives cb data spans
          { s with cs := .rawValue, trail := (byte' :: rest).length, p := s.p + 1 }
          (s.p + 1 + (byte' :: rest).length) obj u :=
        arrives_body size .raw (fun n => rfl) (by simp) rfl (by simp) (by omega) found.tail
          made
      have arrived := body.after (leads_againFixedTrail state found.head other run)
      rwa [show s.p + 1 + (byte' :: rest).length =
        s.p + (RawWidth.header .fix (byte' :: rest).length ++ byte' :: rest).length by
          simp [RawWidth.header]; omega] at arrived
  | w8 =>
    have fits : bytes.length < 256 := fits
    have here : At data (s.p + 1) (bigEndian 1 bytes.length ++ bytes) := found.tail
    have there := here.right
    rw [length_bigEndian] at there
    have pos : 0 < bytes.length := List.length_pos_iff.mpr (nonempty rfl)
    refine ⟨{ s with
      trail := bytes.length
      p := s.p + 2 + (bytes.length - 1)
      cs := .raw8
      user := u }, by simp [RawWidth.header]; omega, rfl, rfl, fun label s' pushed => ?_⟩
    refine .last ⟨fun _ _ => ⟨_, spanned rfl⟩, fun no => absurd state no⟩
      (returns_step_header state found.head ?_)
    change Prog.Returns (raw8 cb data) s label s'
    simp only [raw8, returns_bind, returns_read, returns_update]
    refine ⟨s, s, ⟨rfl, rfl⟩, bytes.length, s, returns_load here.left fits, (), _, rfl,
      bytes, _, returns_readBytes there, ?_⟩
    rw [trailLess_of_pos pos (by omega)]
    exact returns_pushValue (s := { s with
      trail := bytes.length
      p := s.p + 2 + (bytes.length - 1)
      cs := .raw8 }) made pushed
  | w16 =>
    exact arrives_sized size (by decide) (by decide) fits state found (by decide) rfl (by simp)
      (by simp) (fun n => rfl) (fun n length => rfl) made
  | w32 =>
    exact arrives_sized size (by decide) (by decide) fits state found (by decide) rfl (by simp)
      (by simp) (fun n => rfl) (fun n length => rfl) made

theorem arrives_bin (size : data.length < 2 ^ 64) {w : BinWidth} {bytes : Bytes}
    (fits : bytes.length < w.limit) (state : s.cs = .header)
    (found : At data s.p (w.header bytes.length ++ bytes))
    (made : Prog.Returns (cb.value (.bin bytes)) s.user obj u) :
    Arrives cb data spans s (s.p + (w.header bytes.length ++ bytes).length) obj u := by
  cases w
  all_goals
    exact arrives_sized size (by decide) (by decide) fits state found (by decide) rfl (by simp)
      (by simp) (fun n => rfl) (fun n length => rfl) made

theorem arrives_scalar (size : data.length < 2 ^ 64) {x : Scalar} (fits : x.Fits)
    (state : s.cs = .header) (found : At data s.p x.bytes)
    (nonempty : ∀ span ∈ x.raw8Spans s.p, span.1 + 2 < span.2)
    (spanned : ∀ span ∈ x.raw8Spans s.p, span ∈ spans)
    (made : Prog.Returns (cb.value x.value) s.user obj u) :
    Arrives cb data spans s (s.p + x.bytes.length) obj u := by
  cases x with
  | fixnum n =>
    have fits : n < 128 := fits
    refine arrives_header state found.head (fixByte_ne (by omega) (by omega)) ?_ made
    rw [toNat_fixByte (by omega)]
    unfold header
    rw [if_pos (by omega)]
    rfl
  | negFixnum n =>
    have fits : n < 32 := fits
    refine arrives_header state found.head (fixByte_ne (by omega) (by omega)) ?_ made
    rw [toNat_fixByte (by omega)]
    have signed : toSigned 8 (0xe0 + n) = (n : Int) - 32 := by
      unfold toSigned
      rw [if_neg (by omega)]
      omega
    unfold header
    rw [if_neg (by omega), if_neg (by omega), if_neg (by omega), if_neg (by omega),
      if_neg (by omega), signed]
    rfl
  | nil => exact arrives_header state found.head (by decide) rfl made
  | false => exact arrives_header state found.head (by decide) rfl made
  | true => exact arrives_header state found.head (by decide) rfl made
  | number t bits =>
    have arrived : Arrives cb data spans s (s.p + (1 + t.width)) obj u :=
      arrives_number size fits state found made
    rwa [show 1 + t.width = (Scalar.number t bits).bytes.length by
      simp [Scalar.bytes, Nat.add_comm]] at arrived
  | raw w bytes =>
    refine arrives_raw size fits state found (fun same => ?_) (fun same => ?_) made
    · subst same
      have := nonempty _ (.head _)
      intro empty
      simp [empty] at this
    · subst same
      exact spanned _ (.head _)
  | bin w bytes => exact arrives_bin size fits state found made

end

section

variable {spans : List (Nat × Nat)} {s : Context υ ο} {func : Nat → Prog Unit φ τ υ ο}

theorem leadsTo_count (cs : UnpackState) (size : data.length < 2 ^ 64) {k n : Nat} {byte : UInt8}
     {ct : ContainerType} (small : k ≤ 4) (pos : 0 < k)
    (fits : n < 256 ^ k) (state : s.cs = .header) (found : At data s.p (byte :: bigEndian k n))
    (other : byte ≠ 0xd9) (header : header cb data byte.toNat = againFixedTrail cs k)
    (wait : cs ≠ .header) (run : ∀ i, trailed cb data cs k i =
      load data i k >>= fun count => startContainer cb func count ct) :
    LeadsTo cb data spans s s.stack (s.p + (1 + k)) s.user (startContainer cb func n ct) := by
  have inside := found.tail.le
  rw [length_bigEndian] at inside
  have rest : LeadsTo cb data spans { s with cs := cs, trail := k, p := s.p + 1 } s.stack
      (s.p + (1 + k)) s.user (startContainer cb func n ct) := by
    refine ⟨{ s with cs := cs, trail := k, p := s.p + 1 + k - 1 }, by simp only; omega, rfl, rfl,
      fun label s' started => ?_⟩
    refine .last (spanned_of_other wait pos)
      (returns_step_trailed size wait pos (Nat.lt_of_le_of_lt small (by decide)) inside ?_)
    rw [run, returns_bind]
    exact ⟨n, _, returns_load found.tail fits, started⟩
  exact rest.after (leads_againFixedTrail state found.head other header)

theorem leadsTo_fix {n : Nat} {m : Machine φ τ υ ο Label} (small : n < 256) (other : n ≠ 0xd9)
    (state : s.cs = .header) (found : data[s.p]? = some (UInt8.ofNat n))
    (run : header cb data n = m) : LeadsTo cb data spans s s.stack (s.p + 1) s.user m := by
  refine ⟨s, rfl, rfl, rfl, fun label s' started => ?_⟩
  refine .last (spanned_of_byte state found (fixByte_ne small other))
    (returns_step_header state found ?_)
  rwa [toNat_fixByte small, run]

theorem header_fixArray {n : Nat} (small : n < 16) :
    header cb data (0x90 + n) = startContainer cb cb.array n .arrayItem := by
  unfold header
  rw [if_neg (by omega), if_neg (by omega), if_pos (by omega), show (0x90 + n) % 16 = n by omega]

theorem header_fixMap {n : Nat} (small : n < 16) :
    header cb data (0x80 + n) = startContainer cb cb.map n .mapKey := by
  unfold header
  rw [if_neg (by omega), if_pos (by omega), show (0x80 + n) % 16 = n by omega]

theorem leadsTo_array (size : data.length < 2 ^ 64) {w : CountWidth} {n : Nat}
    (fits : n < w.limit) (state : s.cs = .header) (found : At data s.p (w.arrayHeader n)) :
    LeadsTo cb data spans s s.stack (s.p + (w.arrayHeader n).length) s.user
      (startContainer cb cb.array n .arrayItem) := by
  cases w with
  | fix =>
    have fits : n < 16 := fits
    exact leadsTo_fix (by omega) (by omega) state found.head (header_fixArray fits)
  | w16 =>
    exact leadsTo_count .array16 size (by decide) (by decide) fits state found (by decide) rfl
      (by simp) fun i => rfl
  | w32 =>
    exact leadsTo_count .array32 size (by decide) (by decide) fits state found (by decide) rfl
      (by simp) fun i => rfl

theorem leadsTo_map (size : data.length < 2 ^ 64) {w : CountWidth} {n : Nat}
    (fits : n < w.limit) (state : s.cs = .header) (found : At data s.p (w.mapHeader n)) :
    LeadsTo cb data spans s s.stack (s.p + (w.mapHeader n).length) s.user
      (startContainer cb cb.map n .mapKey) := by
  cases w with
  | fix =>
    have fits : n < 16 := fits
    exact leadsTo_fix (by omega) (by omega) state found.head (header_fixMap fits)
  | w16 =>
    exact leadsTo_count .map16 size (by decide) (by decide) fits state found (by decide) rfl
      (by simp) fun i => rfl
  | w32 =>
    exact leadsTo_count .map32 size (by decide) (by decide) fits state found (by decide) rfl
      (by simp) fun i => rfl

theorem returns_startContainer {ct : ContainerType} {count : Nat}
    {obj : ο} {u : υ} (room : s.stack.length < embedStackSize)
    (made : Prog.Returns (func count) s.user obj u) (some : count ≠ 0) :
    Prog.Returns (startContainer cb func count ct) s .again
      { s with
        user := u
        stack := ⟨obj, count, ct, none⟩ :: s.stack
        cs := .header
        p := s.p + 1 } := by
  simp only [startContainer, returns_bind, returns_read, Prog.returns_failIf, call,
    returns_zoom]
  refine ⟨s, s, ⟨rfl, rfl⟩, (), s, ⟨by omega, rfl⟩, obj, _, ⟨u, made, rfl⟩, ?_⟩
  rw [if_neg some]
  simp only [setStack, headerAgain, returns_bind, returns_update, returns_pure]
  exact ⟨(), _, rfl, (), _, rfl, trivial, rfl⟩

theorem returns_startContainer_zero {ct : ContainerType}
    {obj : ο} {u : υ} {label : Label} {s' : Context υ ο}
    (room : s.stack.length < embedStackSize) (made : Prog.Returns (func 0) s.user obj u)
    (pushed : Prog.Returns (push cb s.stack obj) { s with user := u } label s') :
    Prog.Returns (startContainer cb func 0 ct) s label s' := by
  simp only [startContainer, returns_bind, returns_read, Prog.returns_failIf, call,
    returns_zoom]
  refine ⟨s, s, ⟨rfl, rfl⟩, (), s, ⟨by omega, rfl⟩, obj, _, ⟨u, made, rfl⟩, ?_⟩
  rw [if_pos trivial]
  simp only [pushObject, returns_bind, returns_read]
  exact ⟨_, _, ⟨rfl, rfl⟩, pushed⟩

variable {rest : List (Stack ο)}

theorem returns_push_item {c : Stack ο} {obj container : ο} {u : υ}
    (array : c.ct = .arrayItem) (more : c.count ≠ 1)
    (made : Prog.Returns (cb.arrayItem c.obj obj) s.user container u) :
    Prog.Returns (push cb (c :: rest) obj) s .again
      { s with
        user := u
        stack := { c with obj := container, count := c.count - 1 } :: rest
        cs := .header
        p := s.p + 1 } := by
  simp only [push, array, returns_bind, call, returns_zoom]
  refine ⟨container, _, ⟨u, made, rfl⟩, ?_⟩
  rw [if_neg more]
  simp only [setStack, headerAgain, returns_bind, returns_update, returns_pure]
  exact ⟨(), _, rfl, (), _, rfl, trivial, rfl⟩

theorem returns_push_lastItem {c : Stack ο} {obj container : ο} {u : υ}
    {label : Label} {s' : Context υ ο} (array : c.ct = .arrayItem) (last : c.count = 1)
    (made : Prog.Returns (cb.arrayItem c.obj obj) s.user container u)
    (pushed : Prog.Returns (push cb rest container) { s with user := u, stack := rest }
      label s') :
    Prog.Returns (push cb (c :: rest) obj) s label s' := by
  simp only [push, array, returns_bind, call, returns_zoom]
  refine ⟨container, _, ⟨u, made, rfl⟩, ?_⟩
  rw [if_pos last]
  simp only [setStack, returns_bind, returns_update]
  exact ⟨(), _, rfl, pushed⟩

theorem returns_push_key {c : Stack ο} {key : ο} (map : c.ct = .mapKey) :
    Prog.Returns (push cb (c :: rest) key) s .again
      { s with
        stack := { c with mapKey := some key, ct := .mapValue } :: rest
        cs := .header
        p := s.p + 1 } := by
  simp only [push, map, setStack, headerAgain, returns_bind, returns_update,
    returns_pure]
  exact ⟨(), _, rfl, (), _, rfl, trivial, rfl⟩

theorem returns_push_value {c : Stack ο} {key val container : ο} {u : υ}
    (map : c.ct = .mapValue) (keyed : c.mapKey = some key) (more : c.count ≠ 1)
    (made : Prog.Returns (cb.mapItem c.obj key val) s.user container u) :
    Prog.Returns (push cb (c :: rest) val) s .again
      { s with
        user := u
        stack := { c with obj := container, count := c.count - 1, ct := .mapKey } :: rest
        cs := .header
        p := s.p + 1 } := by
  simp only [push, map, keyed, returns_bind, call, returns_zoom]
  refine ⟨container, _, ⟨u, made, rfl⟩, ?_⟩
  rw [if_neg more]
  simp only [setStack, headerAgain, returns_bind, returns_update, returns_pure]
  exact ⟨(), _, rfl, (), _, rfl, trivial, rfl⟩

theorem returns_push_lastValue {c : Stack ο} {key val container : ο}
    {u : υ} {label : Label} {s' : Context υ ο} (map : c.ct = .mapValue)
    (keyed : c.mapKey = some key) (last : c.count = 1)
    (made : Prog.Returns (cb.mapItem c.obj key val) s.user container u)
    (pushed : Prog.Returns (push cb rest container) { s with user := u, stack := rest }
      label s') :
    Prog.Returns (push cb (c :: rest) val) s label s' := by
  simp only [push, map, keyed, returns_bind, call, returns_zoom]
  refine ⟨container, _, ⟨u, made, rfl⟩, ?_⟩
  rw [if_pos last]
  simp only [setStack, returns_bind, returns_update]
  exact ⟨(), _, rfl, pushed⟩

end

def Covers (spans inner : List (Nat × Nat)) : Prop :=
  ∀ span ∈ inner, span.1 + 2 < span.2 ∧ span ∈ spans

theorem Covers.left {spans xs ys : List (Nat × Nat)} (covers : Covers spans (xs ++ ys)) :
    Covers spans xs := fun span mem => covers span (List.mem_append_left _ mem)

theorem Covers.right {spans xs ys : List (Nat × Nat)} (covers : Covers spans (xs ++ ys)) :
    Covers spans ys := fun span mem => covers span (List.mem_append_right _ mem)

variable {spans : List (Nat × Nat)}

mutual

/-- **The parser makes the calls of an object and arrives at `_push` with what they
build.** -/
theorem arrives_msg (size : data.length < 2 ^ 64) : (m : Msg) → {s : Context υ ο} → {obj : ο} →
    {u : υ} → m.Fits → s.cs = .header → At data s.p m.bytes → Covers spans (m.raw8Spans s.p) →
    s.stack.length + m.depth ≤ embedStackSize → Prog.Returns (m.eval cb) s.user obj u →
    Arrives cb data spans s (s.p + m.bytes.length) obj u
  | .scalar x, s, obj, u, fits, state, found, covers, _, made =>
    arrives_scalar size fits state found (fun span mem => (covers span mem).1)
      (fun span mem => (covers span mem).2) made
  | .pad m, s, obj, u, fits, state, found, covers, room, made => by
    have skipped : Leads cb data (Spanned data spans) s .again
        { s with cs := .header, p := s.p + 1 } :=
      .last (spanned_of_byte state found.head (by decide))
        (returns_step_header state found.head (by
        change Prog.Returns headerAgain s .again _
        simp only [headerAgain, returns_bind, returns_update, returns_pure]
        exact ⟨(), _, rfl, trivial, rfl⟩))
    have rest : Arrives cb data spans { s with cs := .header, p := s.p + 1 }
        (s.p + 1 + m.bytes.length) obj u :=
      arrives_msg size m fits rfl found.tail covers room made
    have arrived := rest.after skipped
    rwa [show s.p + 1 + m.bytes.length = s.p + (Msg.pad m).bytes.length by
      simp only [Msg.bytes, length_cons]; omega] at arrived
  | .array w items, s, obj, u, fits, state, found, covers, room, made => by
    simp only [Msg.eval, returns_bind] at made
    obtain ⟨container, u₁, opened, filled⟩ := made
    simp only [Msg.depth] at room
    have header : LeadsTo cb data spans s s.stack
        (s.p + (w.arrayHeader items.length).length) s.user
        (startContainer cb cb.array items.length .arrayItem) :=
      leadsTo_array size fits.1 state found.left
    obtain ⟨s₁, position, stack, user, leads⟩ := header
    cases items with
    | nil =>
      obtain ⟨rfl, rfl⟩ := Prog.returns_pure.mp filled
      refine ⟨{ s₁ with user := u }, by simpa [Msg.bytes, itemsBytes] using position, stack,
        rfl, fun label s' pushed => leads label s' ?_⟩
      rw [← stack] at pushed
      exact returns_startContainer_zero (by rw [stack]; omega) (by rw [user]; exact opened)
        pushed
    | cons m rest =>
      have started := leads .again _ (returns_startContainer (by rw [stack]; omega)
        (by rw [user]; exact opened) (by simp))
      have inner := arrives_items size (m :: rest) (by simp) fits.2
        (s := { s₁ with
          user := u₁
          stack := ⟨container, (m :: rest).length, .arrayItem, none⟩ :: s₁.stack
          cs := .header
          p := s₁.p + 1 }) rfl
        (by rw [position]; exact found.right) (by rw [position]; exact covers) rfl rfl rfl
        (by rw [stack]; omega) filled
      have arrived := inner.after started
      rw [stack] at arrived
      rwa [show s₁.p + 1 + (itemsBytes (m :: rest)).length =
        s.p + (Msg.array w (m :: rest)).bytes.length by
          simp only [Msg.bytes, length_append]; omega] at arrived
  | .map w pairs, s, obj, u, fits, state, found, covers, room, made => by
    simp only [Msg.eval, returns_bind] at made
    obtain ⟨container, u₁, opened, filled⟩ := made
    simp only [Msg.depth] at room
    have header : LeadsTo cb data spans s s.stack
        (s.p + (w.mapHeader pairs.length).length) s.user
        (startContainer cb cb.map pairs.length .mapKey) :=
      leadsTo_map size fits.1 state found.left
    obtain ⟨s₁, position, stack, user, leads⟩ := header
    cases pairs with
    | nil =>
      obtain ⟨rfl, rfl⟩ := Prog.returns_pure.mp filled
      refine ⟨{ s₁ with user := u }, by simpa [Msg.bytes, pairsBytes] using position, stack,
        rfl, fun label s' pushed => leads label s' ?_⟩
      rw [← stack] at pushed
      exact returns_startContainer_zero (by rw [stack]; omega) (by rw [user]; exact opened)
        pushed
    | cons pair rest =>
      have started := leads .again _ (returns_startContainer (by rw [stack]; omega)
        (by rw [user]; exact opened) (by simp))
      have inner := arrives_pairs size (pair :: rest) (by simp) fits.2
        (s := { s₁ with
          user := u₁
          stack := ⟨container, (pair :: rest).length, .mapKey, none⟩ :: s₁.stack
          cs := .header
          p := s₁.p + 1 }) rfl
        (by rw [position]; exact found.right) (by rw [position]; exact covers) rfl rfl rfl
        (by rw [stack]; omega) filled
      have arrived := inner.after started
      rw [stack] at arrived
      rwa [show s₁.p + 1 + (pairsBytes (pair :: rest)).length =
        s.p + (Msg.map w (pair :: rest)).bytes.length by
          simp only [Msg.bytes, length_append]; omega] at arrived

theorem arrives_items (size : data.length < 2 ^ 64) : (items : List Msg) → items ≠ [] →
    ItemsFit items → {s : Context υ ο} → {c : Stack ο} → {stack : List (Stack ο)} →
    {container : ο} → {u : υ} → s.cs = .header → At data s.p (itemsBytes items) →
    Covers spans (itemsRaw8Spans s.p items) → s.stack = c :: stack → c.ct = .arrayItem →
    c.count = items.length → stack.length + (itemsDepth items + 1) ≤ embedStackSize →
    Prog.Returns (evalItems cb items c.obj) s.user container u →
    LeadsTo cb data spans s stack (s.p + (itemsBytes items).length) u (push cb stack container)
  | [], nonempty, _, _, _, _, _, _, _, _, _, _, _, _, _, _ => absurd rfl nonempty
  | m :: rest, _, fits, s, c, stack, container, u, state, found, covers, top, array, count, room,
      made => by
      simp only [evalItems, returns_bind] at made
      obtain ⟨obj, u₁, built, container₁, u₂, added, filled⟩ := made
      simp only [itemsDepth] at room
      have first := arrives_msg size m fits.1 state found.left covers.left
        (by rw [top, length_cons]; omega) built
      rw [Arrives, top] at first
      obtain ⟨s₁, position, stack₁, user, leads⟩ := first
      rw [← user] at added
      cases rest with
      | nil =>
        obtain ⟨rfl, rfl⟩ := Prog.returns_pure.mp filled
        refine ⟨{ s₁ with user := u, stack := stack }, by simpa [itemsBytes] using position, rfl,
          rfl, fun label s' pushed => leads label s' ?_⟩
        exact returns_push_lastItem array count added pushed
      | cons m' rest' =>
        have more := leads .again _ (returns_push_item array
          (by rw [count, length_cons, length_cons]; omega) added)
        have inner := arrives_items size (m' :: rest') (by simp) fits.2
          (s := { s₁ with
            user := u₂
            stack := { c with obj := container₁, count := c.count - 1 } :: stack
            cs := .header
            p := s₁.p + 1 }) rfl
          (by rw [position]; exact found.right) (by rw [position]; exact covers.right) rfl array
          (by simp only [count, length_cons]; omega) (by omega) filled
        have arrived := inner.after more
        rwa [show s₁.p + 1 + (itemsBytes (m' :: rest')).length =
          s.p + (itemsBytes (m :: m' :: rest')).length by
            rw [length_itemsBytes_cons m]; omega] at arrived

theorem arrives_pairs (size : data.length < 2 ^ 64) : (pairs : List (Msg × Msg)) → pairs ≠ [] →
    PairsFit pairs → {s : Context υ ο} → {c : Stack ο} → {stack : List (Stack ο)} →
    {container : ο} → {u : υ} → s.cs = .header → At data s.p (pairsBytes pairs) →
    Covers spans (pairsRaw8Spans s.p pairs) → s.stack = c :: stack → c.ct = .mapKey →
    c.count = pairs.length → stack.length + (pairsDepth pairs + 1) ≤ embedStackSize →
    Prog.Returns (evalPairs cb pairs c.obj) s.user container u →
    LeadsTo cb data spans s stack (s.p + (pairsBytes pairs).length) u (push cb stack container)
  | [], nonempty, _, _, _, _, _, _, _, _, _, _, _, _, _, _ => absurd rfl nonempty
  | (k, v) :: rest, _, fits, s, c, stack, container, u, state, found, covers, top, map, count, room,
      made => by
      simp only [evalPairs, returns_bind] at made
      obtain ⟨key, u₁, keyBuilt, val, u₂, valBuilt, container₁, u₃, added, filled⟩ := made
      simp only [pairsDepth] at room
      have keyArrives := arrives_msg size k fits.1 state found.left covers.left
        (by rw [top, length_cons]; omega) keyBuilt
      rw [Arrives, top] at keyArrives
      obtain ⟨s₁, position₁, stack₁, user₁, leads₁⟩ := keyArrives
      have kept := leads₁ .again _ (returns_push_key map)
      have valArrives := arrives_msg size v fits.2.1
        (s := { s₁ with
          stack := { c with mapKey := some key, ct := .mapValue } :: stack
          cs := .header
          p := s₁.p + 1 }) rfl
        (by rw [position₁]; exact found.right.left) (by rw [position₁]; exact covers.right.left)
        (by simp only [length_cons]; omega) (by rw [user₁]; exact valBuilt)
      obtain ⟨s₂, position₂, stack₂, user₂, leads₂⟩ := valArrives.after kept
      rw [← user₂] at added
      cases rest with
      | nil =>
        obtain ⟨rfl, rfl⟩ := Prog.returns_pure.mp filled
        refine ⟨{ s₂ with user := u, stack := stack }, ?_, rfl, rfl,
          fun label s' pushed => leads₂ label s' ?_⟩
        · simp only [pairsBytes, length_append, length_nil]
          simp only at position₂
          omega
        · exact returns_push_lastValue rfl rfl count added pushed
      | cons pair rest' =>
        have more := leads₂ .again _ (returns_push_value rfl rfl
          (by simp only [count, length_cons]; omega) added)
        have next : s₂.p + 1 = s.p + k.bytes.length + v.bytes.length := by
          simp only at position₂
          omega
        have inner := arrives_pairs size (pair :: rest') (by simp) fits.2.2
          (s := { s₂ with
            user := u₃
            stack := ⟨container₁, c.count - 1, .mapKey, some key⟩ :: stack
            cs := .header
            p := s₂.p + 1 }) rfl
          (by rw [next]; exact found.right.right)
          (by rw [next]; exact covers.right.right) rfl rfl
          (by simp only [count, length_cons]; omega) (by omega) filled
        have arrived := inner.after more
        rwa [show s₂.p + 1 + (pairsBytes (pair :: rest')).length =
          s.p + (pairsBytes ((k, v) :: pair :: rest')).length by
            rw [length_pairsBytes_cons k v]; omega] at arrived

end

end PhpExts.Msgpack
