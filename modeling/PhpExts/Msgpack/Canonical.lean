import PhpExts.Msgpack.Chunking
import PhpExts.Msgpack.Encoded
import Mathlib

/-!
# Numbers and headers are packed exactly

What the packers write for a number, a count or a length is read by `template_execute` as just that,
and takes as few bytes as the format has for it (`packing_exact`). The one exception is a setting:
without `msgpack.use_str8_serialization` a string of 32 to 255 bytes gets the length of two bytes
that all readers know, where one would do (`not_shortest`).
-/

namespace PhpExts.Msgpack

open PhpExts.Zend PhpExts.Library

/-- `msgpack_pack_real_uint64`. -/
def packUint64 (d : Nat) : Bytes :=
  if d < 2 ^ 8 then
    if d < 2 ^ 7 then [UInt8.ofNat d] else 0xcc :: bigEndian 1 d
  else if d < 2 ^ 16 then 0xcd :: bigEndian 2 d
  else if d < 2 ^ 32 then 0xce :: bigEndian 4 d
  else 0xcf :: bigEndian 8 d

inductive Seen where
  | value (v : Value)
  | array (n : Nat)
  | map (n : Nat)

def Callbacks.seen : Callbacks Empty Unit Unit Seen where
  value v := pure (.value v)
  array n := pure (.array n)
  map n := pure (.map n)
  arrayItem container _ := pure container
  mapItem container _ _ := pure container

/-- What `template_execute` reads from the start: an object, or the container whose items are to
come. -/
def decoded (data : Bytes) : Option Seen :=
  let run := execute .seen data (data.length + 1) (Context.init ())
  match run.result with
  | .ok .extraBytes => run.state.data
  | .ok .continue => run.state.stack.head?.map Stack.obj
  | _ => none

def Value.number : Value → Option Int
  | uint8 n | uint16 n | uint32 n | uint64 n => some n
  | int8 n | int16 n | int32 n | int64 n => some n
  | _ => none

structure PacksNumber (bytes : Bytes) (d : Int) : Prop where
  decoded : ∃ v : Value, v.number = some d ∧ decoded bytes = some (.value v)
  shortest : ∀ x : Scalar, x.Fits → x.value.number = some d → bytes.length ≤ x.bytes.length

theorem ready_init : Ready (Context.init () : Context Unit Seen) :=
  ⟨.inl (Nat.zero_le _), Nat.two_pow_pos 32, nofun⟩

theorem decoded_scalar {x : Scalar} (fits : x.Fits) (size : x.bytes.length < 2 ^ 64)
    (nonempty : ∀ span ∈ x.raw8Spans 0, span.1 + 2 < span.2) :
    decoded x.bytes = some (.value x.value) := by
  have found : At x.bytes 0 x.bytes := ⟨[], [], by simp, rfl⟩
  have arrives : Arrives .seen x.bytes (x.raw8Spans 0) (Context.init ()) (0 + x.bytes.length)
      (.value x.value) () :=
    arrives_scalar size fits rfl found nonempty (fun span mem => mem) ⟨rfl, rfl⟩
  obtain ⟨s, position, stack, user, leads⟩ := arrives
  have finished := leads .finish { s with data := some (.value x.value), p := s.p + 1 } (by
    simp only [Context.init, push, finish, Prog.returns_bind, Prog.returns_update,
      Prog.returns_pure]
    exact ⟨(), _, rfl, trivial, rfl⟩)
  obtain ⟨log, executes⟩ := executes_of_leads size (describes_scalar fits found nonempty)
    ready_init (Nat.zero_le _) finished
  rw [decoded, executes (x.bytes.length + 1) (Nat.lt_add_left _ (Nat.lt_succ_self _))]

theorem executes_of_leads_end {data : Bytes} {s t : Context Unit Seen}
    (size : data.length < 2 ^ 64) (ready : Ready s) (inside : s.p ≤ data.length)
    (leads : Leads .seen data (Spanned data []) s .again t) (atEnd : t.p = data.length) :
    ∃ log, Executes .seen data s log t .continue := by
  generalize same : Label.again = label at leads
  induction leads with
  | last here step =>
    subst same
    obtain ⟨-, inside', forward⟩ :=
      lands_of_returns ready inside size (here.stepInside_whole nofun) step
    exact ⟨_, .next inside step (forward rfl) (.out inside' (step_end atEnd))⟩
  | next here step _ ih =>
    obtain ⟨ready', inside', forward⟩ :=
      lands_of_returns ready inside size (here.stepInside_whole nofun) step
    obtain ⟨log, executes⟩ := ih ready' inside' atEnd same
    exact ⟨_, .next inside step (forward rfl) executes⟩

theorem decoded_container {bytes : Bytes} {func : Nat → Prog Unit Empty Unit Unit Seen}
    {ct : ContainerType} {n : Nat} {seen : Seen} (size : bytes.length < 2 ^ 64)
    (led : LeadsTo .seen bytes [] (Context.init ()) [] (0 + bytes.length) ()
      (startContainer .seen func n ct))
    (made : Prog.Returns (func n) () seen ()) : decoded bytes = some seen := by
  obtain ⟨s, position, stack, user, leads⟩ := led
  have room : s.stack.length < embedStackSize := by rw [stack]; decide
  have enough := Nat.lt_add_left 0 (Nat.lt_succ_self bytes.length)
  by_cases none : n = 0
  · subst none
    have finished := leads .finish { s with data := some seen, p := s.p + 1 }
      (returns_startContainer_zero room made (by
        simp only [stack, push, finish, Prog.returns_bind, Prog.returns_update, Prog.returns_pure]
        exact ⟨(), _, rfl, trivial, rfl⟩))
    have nowhere : Describes bytes [] := by rintro _ ⟨⟩
    obtain ⟨log, executes⟩ := executes_of_leads size nowhere ready_init (Nat.zero_le _)
      finished
    rw [decoded, executes (bytes.length + 1) enough]
  · have started := leads .again _
      (returns_startContainer room made none)
    obtain ⟨log, executes⟩ := executes_of_leads_end size ready_init (Nat.zero_le _) started
      (by simp only; omega)
    rw [decoded, executes (bytes.length + 1) enough]
    rfl

def numberSize (d : Int) : Nat :=
  if -2 ^ 5 ≤ d ∧ d < 2 ^ 7 then 1
  else if -2 ^ 7 ≤ d ∧ d < 2 ^ 8 then 2
  else if -2 ^ 15 ≤ d ∧ d < 2 ^ 16 then 3
  else if -2 ^ 31 ≤ d ∧ d < 2 ^ 32 then 5
  else 9

theorem toSigned_range {k n : Nat} (fits : n < 2 ^ (k + 1)) :
    -2 ^ k ≤ toSigned (k + 1) n ∧ toSigned (k + 1) n < 2 ^ k := by
  have cast : ((2 ^ k : Nat) : Int) = 2 ^ k := by push_cast; rfl
  rw [toSigned, Nat.add_sub_cancel]
  split_ifs <;> omega

theorem numberSize_le {x : Scalar} {d : Int} (fits : x.Fits) (number : x.value.number = some d) :
    numberSize d ≤ x.bytes.length := by
  rw [numberSize]
  cases x with
  | fixnum n =>
    cases number
    have fits : n < 128 := fits
    rw [if_pos (by omega)]
    exact Nat.le_refl 1
  | negFixnum n =>
    cases number
    have fits : n < 32 := fits
    rw [if_pos (by omega)]
    exact Nat.le_refl 1
  | number t bits =>
    have length : (Scalar.number t bits).bytes.length = 1 + t.width := by
      simp [Scalar.bytes, length_bigEndian, Nat.add_comm]
    rw [length]
    cases t with
    | float => cases number
    | double => cases number
    | uint8 | uint16 | uint32 | uint64 =>
      cases number
      have fits : bits < 256 ^ _ := fits
      simp only [NumberType.width] at fits ⊢
      split_ifs <;> omega
    | int8 =>
      cases number
      have : -2 ^ 7 ≤ toSigned 8 bits ∧ toSigned 8 bits < 2 ^ 7 :=
        toSigned_range (k := 7) fits
      simp only [NumberType.width]
      split_ifs <;> omega
    | int16 =>
      cases number
      have : -2 ^ 15 ≤ toSigned 16 bits ∧ toSigned 16 bits < 2 ^ 15 :=
        toSigned_range (k := 15) fits
      simp only [NumberType.width]
      split_ifs <;> omega
    | int32 =>
      cases number
      have : -2 ^ 31 ≤ toSigned 32 bits ∧ toSigned 32 bits < 2 ^ 31 :=
        toSigned_range (k := 31) fits
      simp only [NumberType.width]
      split_ifs <;> omega
    | int64 =>
      cases number
      simp only [NumberType.width]
      split_ifs <;> omega
  | nil => cases number
  | «false» => cases number
  | «true» => cases number
  | raw w bytes => cases number
  | bin w bytes => cases number

theorem packsNumber_of_size {x : Scalar} {d : Int} (fits : x.Fits)
    (number : x.value.number = some d) (least : x.bytes.length = numberSize d) :
    PacksNumber x.bytes d where
  decoded := by
    have small : x.bytes.length ≤ 9 := by
      rw [least, numberSize]
      split_ifs <;> decide
    refine ⟨x.value, number, decoded_scalar fits (by omega) ?_⟩
    intro span mem
    cases x with
    | raw w bytes => cases number
    | _ => cases mem
  shortest y fits number := least ▸ numberSize_le fits number

theorem length_ofLong (d : Int) : (Scalar.ofLong d).bytes.length = numberSize d := by
  unfold Scalar.ofLong numberSize
  split_ifs <;> first | rfl | omega

theorem number_ofLong {d : Int} (range : InLong d) : (Scalar.ofLong d).value.number = some d := by
  obtain ⟨lower, upper⟩ := range
  have signed {k : Nat} (neg : d < 0) (large : -2 ^ (k - 1) ≤ d) (pos : 0 < k) :
      some (toSigned k (lowBits k d)) = some d := by rw [toSigned_lowBits neg large pos]
  have unsigned {k : Nat} (nonneg : 0 ≤ d) (small : d < 2 ^ k) :
      some ((lowBits k d : Nat) : Int) = some d := by
    rw [lowBits_of_nonneg nonneg small, Int.toNat_of_nonneg nonneg]
  unfold Scalar.ofLong
  split
  · split
    · split
      · exact signed (by omega) lower (by decide)
      · exact signed (by omega) (by omega) (by decide)
    · split
      · exact signed (by omega) (by omega) (by decide)
      · exact signed (by omega) (by omega) (by decide)
  · split
    · exact congrArg some (by omega)
    · split
      · exact congrArg some (Int.toNat_of_nonneg (by omega))
      · split
        · split
          · exact unsigned (by omega) (by omega)
          · exact unsigned (by omega) (by omega)
        · split
          · exact unsigned (by omega) (by omega)
          · exact unsigned (by omega) (by omega)

/-- The encoding that `msgpack_pack_real_uint64` chooses. -/
def Scalar.ofUint64 (n : Nat) : Scalar :=
  if n < 2 ^ 7 then .fixnum n
  else if n < 2 ^ 8 then .number .uint8 n
  else if n < 2 ^ 16 then .number .uint16 n
  else if n < 2 ^ 32 then .number .uint32 n
  else .number .uint64 n

theorem packUint64_eq {n : Nat} (small : n < 2 ^ 64) :
    packUint64 n = (Scalar.ofUint64 n).bytes ∧ (Scalar.ofUint64 n).Fits
      ∧ (Scalar.ofUint64 n).value.number = some (n : Int)
      ∧ (Scalar.ofUint64 n).bytes.length = numberSize n := by
  refine ⟨?_, ?_, ?_, ?_⟩
  · unfold packUint64 Scalar.ofUint64
    split_ifs <;> first | rfl | omega
  · unfold Scalar.ofUint64
    split_ifs <;> assumption
  · unfold Scalar.ofUint64
    split_ifs <;> rfl
  · unfold Scalar.ofUint64 numberSize
    split_ifs <;> first | rfl | omega

theorem length_arrayHeader (w : CountWidth) (n : Nat) :
    (w.arrayHeader n).length = (w.mapHeader n).length ∧ (w.arrayHeader n).length ≤ 5 := by
  cases w <;> exact ⟨rfl, by simp [CountWidth.arrayHeader, length_bigEndian]⟩

theorem decoded_arrayHeader {w : CountWidth} {n : Nat} (fits : n < w.limit) :
    decoded (w.arrayHeader n) = some (.array n) := by
  have size : (w.arrayHeader n).length < 2 ^ 64 :=
    Nat.lt_of_le_of_lt (length_arrayHeader w n).2 (by decide)
  exact decoded_container size (leadsTo_array size fits rfl ⟨[], [], by simp, rfl⟩) ⟨rfl, rfl⟩

theorem decoded_mapHeader {w : CountWidth} {n : Nat} (fits : n < w.limit) :
    decoded (w.mapHeader n) = some (.map n) := by
  have size : (w.mapHeader n).length < 2 ^ 64 := by
    obtain ⟨same, small⟩ := length_arrayHeader w n
    omega
  exact decoded_container size (leadsTo_map size fits rfl ⟨[], [], by simp, rfl⟩) ⟨rfl, rfl⟩

theorem length_ofCount_le {w : CountWidth} {n : Nat} (fits : n < w.limit) :
    ((CountWidth.ofCount n).arrayHeader n).length ≤ (w.arrayHeader n).length := by
  cases w
  all_goals
    simp only [CountWidth.limit] at fits
    unfold CountWidth.ofCount
    split_ifs <;> first | omega | (simp [CountWidth.arrayHeader, length_bigEndian])

theorem length_ofLength_le {str8 : Bool} {w : RawWidth} {l : Nat} (fits : l < w.limit)
    (allowed : str8 = true ∨ w ≠ .w8) :
    ((RawWidth.ofLength str8 l).header l).length ≤ (w.header l).length := by
  unfold RawWidth.ofLength
  cases w with
  | fix =>
    have fits : l < 32 := fits
    rw [if_pos fits]
  | w8 =>
    have fits : l < 256 := fits
    have one : str8 = true := allowed.resolve_right fun other => other rfl
    split_ifs with fix short
    · simp [RawWidth.header, length_bigEndian]
    · exact Nat.le_refl _
    · exact absurd ⟨fits, one⟩ short
    · exact absurd ⟨fits, one⟩ short
  | w16 =>
    have fits : l < 65536 := fits
    rw [if_pos fits]
    split_ifs <;> simp [RawWidth.header, length_bigEndian]
  | w32 => split_ifs <;> simp [RawWidth.header, length_bigEndian]

theorem decoded_packRaw {str8 : Bool} {body : Bytes} (small : body.length < 2 ^ 32) :
    decoded (packRaw str8 body.length ++ body) = some (.value (.raw body)) := by
  have eq : packRaw str8 body.length ++ body = (Scalar.ofString str8 body).bytes := by
    rw [packRaw_eq small]
    rfl
  rw [eq]
  refine decoded_scalar (Scalar.fits_ofString small) ?_ ((wellFormed_ofString small).spans 0)
  have header : ∀ w : RawWidth, (w.header body.length).length ≤ 5 := by
    intro w
    cases w <;> simp [RawWidth.header, length_bigEndian]
  have := header (RawWidth.ofLength str8 body.length)
  rw [Scalar.ofString, Scalar.bytes, List.length_append]
  omega

/-- All that is packed is read as what it stands for, in as few bytes as there can be. -/
theorem packing_exact (str8 : Bool) : (∀ d, InLong d → PacksNumber (packLong d) d)
      ∧ (∀ n < 2 ^ 64, PacksNumber (packUint64 n) n)
      ∧ (∀ n < 2 ^ 32, decoded (packArray n) = some (.array n)
        ∧ ∀ w : CountWidth, n < w.limit → (packArray n).length ≤ (w.arrayHeader n).length)
      ∧ (∀ n < 2 ^ 32, decoded (packMap n) = some (.map n)
        ∧ ∀ w : CountWidth, n < w.limit → (packMap n).length ≤ (w.mapHeader n).length)
      ∧ ∀ body : Bytes, body.length < 2 ^ 32 →
        decoded (packRaw str8 body.length ++ body) = some (.value (.raw body))
        ∧ ∀ w : RawWidth, body.length < w.limit → str8 = true ∨ w ≠ .w8 →
          (packRaw str8 body.length).length ≤ (w.header body.length).length := by
  refine ⟨fun d range => ?_, fun n small => ?_, fun n small => ?_, fun n small => ?_,
    fun body small => ⟨decoded_packRaw small, fun w fits allowed => ?_⟩⟩
  · rw [(packLong_eq range).bytes]
    exact packsNumber_of_size (packLong_eq range).fits (number_ofLong range) (length_ofLong d)
  · obtain ⟨eq, fits, number, length⟩ := packUint64_eq small
    rw [eq]
    exact packsNumber_of_size fits number length
  · rw [packArray_eq small]
    exact ⟨decoded_arrayHeader (CountWidth.lt_limit_ofCount small), fun w => length_ofCount_le⟩
  · rw [packMap_eq small]
    refine ⟨decoded_mapHeader (CountWidth.lt_limit_ofCount small), fun w fits => ?_⟩
    rw [← (length_arrayHeader _ n).1, ← (length_arrayHeader w n).1]
    exact length_ofCount_le fits
  · rw [packRaw_eq small]
    exact length_ofLength_le fits allowed

/-- A string of 32 bytes, where the setting does not allow a length of one byte. -/
theorem not_shortest : ¬ ∀ (str8 : Bool) (l : Nat) (w : RawWidth), l < w.limit →
      (packRaw str8 l).length ≤ (w.header l).length := by
  intro shortest
  exact absurd (shortest false 32 .w8 (by decide)) (by decide)

end PhpExts.Msgpack
