import PhpExts.Msgpack.Template

/-!
# The msgpack parser stays inside its data and returns

Between two steps the parser waits for at least as many bytes as its state
loads (`Ready`), the position is at most the length of the data, and every step
that goes on moves it forward. So a call reads inside the data, returns after at
most one step for each byte, and stores back an offset inside the data.

Two steps move the position without a comparison: the header `0xd9`, which takes
its length byte and its string as present, and a call that resumes in a state
that waits for no bytes, as a call leaves it that finished with an empty string.
In both, an empty length moves the position by `2 ^ 32 - 1`. `StepInside` is the
condition that the position stays inside the data; in every sequence of calls
whose steps satisfy it, every call stays inside its data
(`execute_inside`).
-/

namespace PhpExts.Msgpack

open PhpExts.Zend PhpExts.Library
open Prog (meets_pure meets_seq)

variable {φ τ υ ο : Type}

/-- The step keeps the position inside the data: after a header `0xd9` the length
byte and the string are there, and a state that waits for no bytes does not move
past the end. -/
def StepInside (data : Bytes) (s : Context υ ο) : Prop :=
  s.p < data.length →
    (s.cs = .header → data[s.p]? = some 0xd9 →
      ∃ length, data[s.p + 1]? = some length ∧
        s.p + 2 + trailLess length.toNat < data.length) ∧
    (s.cs ≠ .header → s.trail = 0 → s.p + trailLess 0 < data.length)

inductive Visits (cb : Callbacks φ τ υ ο) (data : Bytes) : Context υ ο → Context υ ο → Prop where
  | here (s : Context υ ο) : Visits cb data s s
  | next {s s' s'' : Context υ ο} (first : Prog.Returns (step cb data) s .again s')
      (rest : Visits cb data s' s'') : Visits cb data s s''

def StepsInside (cb : Callbacks φ τ υ ο) (data : Bytes) (s : Context υ ο) : Prop :=
  ∀ s', Visits cb data s s' → StepInside data s'

structure Callbacks.Total (cb : Callbacks φ τ υ ο) : Prop where
  value : ∀ v u, (cb.value v u).result ≠ .diverge
  array : ∀ n u, (cb.array n u).result ≠ .diverge
  map : ∀ n u, (cb.map n u).result ≠ .diverge
  arrayItem : ∀ c v u, (cb.arrayItem c v u).result ≠ .diverge
  mapItem : ∀ c k v u, (cb.mapItem c k v u).result ≠ .diverge

def UnpackState.width : UnpackState → Nat
  | .uint8 | .int8 | .bin8 => 1
  | .uint16 | .int16 | .bin16 | .raw16 | .array16 | .map16 => 2
  | .float | .uint32 | .int32 | .bin32 | .raw32 | .array32 | .map32 => 4
  | .double | .uint64 | .int64 => 8
  | .header | .raw8 | .binValue | .rawValue => 0

/-- The parser waits for what it will load, and a container that waits for a
value has its key. -/
structure Ready (s : Context υ ο) : Prop where
  waits : s.cs.width ≤ s.trail ∨ s.trail = 0
  trail : s.trail < 2 ^ 32
  keyed : ∀ c ∈ s.stack, c.ct = .mapValue → c.mapKey.isSome

def insideData (cb : Callbacks φ τ υ ο) (data : Bytes) :
    Prog.Stop Unit (Access φ) (Context υ ο) where
  error _ s := Ready s ∧ s.p ≤ data.length
  fault access s := (∃ x, access = .callback x) ∧ s.p ≤ data.length
  diverge _ := ¬ cb.Total

/-- The program stays inside the data and returns, if it does, with `post`. -/
abbrev Stays (cb : Callbacks φ τ υ ο) (data : Bytes) {α : Type} (m : Machine φ τ υ ο α)
    (s : Context υ ο) (post : α → Context υ ο → Prop) : Prop :=
  Prog.Meets (fun _ => True) (fun _ => True) m s ((insideData cb data).orElse post)

/-- Where a step goes from a position `p`: the position is inside the data, and
after `p` if the parser goes on. -/
def Lands (data : Bytes) (p : Nat) (label : Label) (s : Context υ ο) : Prop :=
  Ready s ∧ s.p ≤ data.length ∧ (label = .again → p < s.p)

theorem Lands.mono {data : Bytes} {p q : Nat} {label : Label} {s : Context υ ο}
    (lands : Lands data q label s) (le : p ≤ q) : Lands data p label s :=
  ⟨lands.1, lands.2.1, fun again => Nat.lt_of_le_of_lt le (lands.2.2 again)⟩

section

variable {cb : Callbacks φ τ υ ο} {data : Bytes} {s : Context υ ο}

theorem trailLess_of_pos {trail : Nat} (pos : 0 < trail) (bound : trail < 2 ^ 32) :
    trailLess trail = trail - 1 := by
  rw [trailLess, show trail + (2 ^ 32 - 1) = trail - 1 + 2 ^ 32 by omega, Nat.add_mod_right,
    Nat.mod_eq_of_lt (by omega)]

theorem raw8_inside {length : UInt8} (found : data[s.p + 1]? = some length)
    (inside : s.p + 2 + trailLess length.toNat < data.length) :
    s.p + 2 + length.toNat ≤ data.length := by
  have bound : s.p + 1 < data.length := (List.getElem?_eq_some_iff.mp found).1
  rcases Nat.eq_zero_or_pos length.toNat with zero | pos
  · rw [zero]
    omega
  · rw [trailLess_of_pos pos (Nat.lt_trans length.toNat_lt (by decide))] at inside
    omega

theorem bytes_inside (ready : Ready s)
    (keeps : s.cs ≠ .header → s.trail = 0 → s.p + trailLess 0 < data.length)
    (other : s.cs ≠ .header) (enough : s.p + s.trail ≤ data.length) :
    s.p + trailLess s.trail < data.length ∧ s.p + max s.cs.width s.trail ≤ data.length := by
  rcases Nat.eq_zero_or_pos s.trail with zero | pos
  · have far := keeps other zero
    have small : s.cs.width ≤ 8 := by cases s.cs <;> decide
    have : trailLess 0 = 2 ^ 32 - 1 := by decide
    rw [zero]
    omega
  · rw [trailLess_of_pos pos ready.trail]
    have := ready.waits
    omega

theorem stays_readByte {i : Nat} (inside : i < data.length) :
    Stays cb data (readByte data i : Machine φ τ υ ο UInt8) s fun byte s' =>
      s' = s ∧ data[i]? = some byte := by
  rw [readByte, List.getElem?_eq_getElem inside]
  exact meets_pure ⟨rfl, rfl⟩

theorem stays_readBytes {i n : Nat} (inside : i + n ≤ data.length) :
    Stays cb data (readBytes data i n : Machine φ τ υ ο Bytes) s fun bytes s' =>
      s' = s ∧ bytes = (data.drop i).take n := by
  induction n generalizing i with
  | zero => exact meets_pure ⟨rfl, by simp⟩
  | succ n ih =>
    refine meets_seq (stays_readByte (by omega)) fun byte s' read => ?_
    obtain ⟨rfl, found⟩ := read
    refine meets_seq (ih (by omega)) fun rest s'' read => ?_
    obtain ⟨rfl, rfl⟩ := read
    refine meets_pure ⟨rfl, ?_⟩
    have bound : i < data.length := by omega
    rw [List.getElem?_eq_getElem bound] at found
    rw [List.drop_eq_getElem_cons bound, List.take_succ_cons, Option.some.inj found]

theorem stays_load {i n : Nat} (inside : i + n ≤ data.length) :
    Stays cb data (load data i n : Machine φ τ υ ο Nat) s fun value s' =>
      s' = s ∧ value < 256 ^ n := by
  refine meets_seq (stays_readBytes inside) fun bytes s' read => ?_
  obtain ⟨rfl, bytes_eq⟩ := read
  refine meets_pure ⟨rfl, Nat.lt_of_lt_of_le (ofBigEndian_lt bytes) ?_⟩
  exact Nat.pow_le_pow_right (by decide) (by rw [bytes_eq, List.length_take]; omega)

/-! ## Callbacks and the stack -/

theorem stays_call {α : Type} {m : Prog Unit φ τ υ α}
    (total : cb.Total → ∀ u, (m u).result ≠ .diverge)
    (ready : Ready s) (inside : s.p ≤ data.length) :
    Stays cb data (call m : Machine φ τ υ ο α) s fun _ s' => ∃ u, s' = { s with user := u } := by
  intro _
  refine ⟨fun _ _ => trivial, ?_⟩
  simp only [call, Prog.zoom]
  cases result : (m s.user).result with
  | ok a => exact ⟨_, rfl⟩
  | error e => exact ⟨⟨ready.waits, ready.trail, ready.keyed⟩, inside⟩
  | fault x => exact ⟨⟨x, rfl⟩, inside⟩
  | diverge => exact fun complete => total complete s.user result

theorem stays_headerAgain (ready : Ready s) (inside : s.p < data.length) :
    Stays cb data (headerAgain : Machine φ τ υ ο Label) s (Lands data s.p) :=
  Prog.meets_update_bind.mpr
    (meets_pure ⟨⟨.inl (Nat.zero_le _), ready.trail, ready.keyed⟩, inside,
      fun _ => Nat.lt_succ_self _⟩)

theorem stays_finish {obj : ο} (ready : Ready s) (inside : s.p < data.length) :
    Stays cb data (finish obj : Machine φ τ υ ο Label) s (Lands data s.p) :=
  Prog.meets_update_bind.mpr
    (meets_pure ⟨⟨ready.waits, ready.trail, ready.keyed⟩, inside, nofun⟩)

theorem stays_againFixedTrail {cs : UnpackState} {trail : Nat} (ready : Ready s)
    (inside : s.p < data.length) (waits : cs.width ≤ trail) (bound : trail < 2 ^ 32) :
    Stays cb data (againFixedTrail cs trail : Machine φ τ υ ο Label) s (Lands data s.p) :=
  Prog.meets_update_bind.mpr
    (meets_pure ⟨⟨.inl waits, bound, ready.keyed⟩, inside, fun _ => Nat.lt_succ_self _⟩)

theorem stays_push {stack : List (Stack ο)} {obj : ο} (ready : Ready s)
    (same : s.stack = stack) (inside : s.p < data.length) :
    Stays cb data (push cb stack obj) s (Lands data s.p) := by
  induction stack generalizing s obj with
  | nil => exact stays_finish ready inside
  | cons c rest ih =>
    have keyed : ∀ c' ∈ rest, c'.ct = .mapValue → c'.mapKey.isSome := fun c' mem =>
      ready.keyed c' (by rw [same]; exact .tail _ mem)
    have replaced : ∀ (s' : Context υ ο) (c' : Stack ο), s'.cs = s.cs → s'.trail = s.trail →
        (c'.ct = .mapValue → c'.mapKey.isSome) → Ready { s' with stack := c' :: rest } := by
      intro s' c' cs trail key
      refine ⟨by rw [cs, trail]; exact ready.waits, by rw [trail]; exact ready.trail, ?_⟩
      intro c'' mem
      rcases List.mem_cons.mp mem with rfl | mem
      · exact key
      · exact keyed c'' mem
    have popped : ∀ u : υ, Ready { s with user := u, stack := rest } := fun u =>
      ⟨ready.waits, ready.trail, keyed⟩
    cases ct : c.ct with
    | arrayItem =>
      simp only [push, ct]
      refine meets_seq
        (stays_call (fun total => total.arrayItem _ _) ready (Nat.le_of_lt inside))
        fun container s' called => ?_
      obtain ⟨u, rfl⟩ := called
      split
      · exact Prog.meets_update_bind.mpr (ih (popped u) rfl inside)
      · exact Prog.meets_update_bind.mpr
          (stays_headerAgain (replaced _ _ rfl rfl (by simp)) inside)
    | mapKey =>
      simp only [push, ct]
      exact Prog.meets_update_bind.mpr
        (stays_headerAgain (replaced _ _ rfl rfl (by simp)) inside)
    | mapValue =>
      simp only [push, ct]
      have key := ready.keyed c (by rw [same]; exact .head _) ct
      obtain ⟨k, found⟩ := Option.isSome_iff_exists.mp key
      simp only [found]
      refine meets_seq
        (stays_call (fun total => total.mapItem _ _ _) ready (Nat.le_of_lt inside))
        fun container s' called => ?_
      obtain ⟨u, rfl⟩ := called
      split
      · exact Prog.meets_update_bind.mpr (ih (popped u) rfl inside)
      · exact Prog.meets_update_bind.mpr
          (stays_headerAgain (replaced _ _ rfl rfl (by simp)) inside)

theorem stays_pushObject {obj : ο} (ready : Ready s)
    (inside : s.p < data.length) : Stays cb data (pushObject cb obj) s (Lands data s.p) :=
  Prog.meets_read_bind.mpr (stays_push ready rfl inside)

theorem stays_pushValue {value : Value} (ready : Ready s)
    (inside : s.p < data.length) : Stays cb data (pushValue cb value) s (Lands data s.p) := by
  refine meets_seq (stays_call (fun total => total.value _) ready (Nat.le_of_lt inside))
    fun obj s' called => ?_
  obtain ⟨u, rfl⟩ := called
  exact stays_pushObject ⟨ready.waits, ready.trail, ready.keyed⟩ inside

theorem stays_startContainer {func : Nat → Prog Unit φ τ υ ο} {count : Nat}
    {ct : ContainerType} (returns : cb.Total → ∀ u, (func count u).result ≠ .diverge)
    (noValue : ct ≠ .mapValue) (ready : Ready s) (inside : s.p < data.length) :
    Stays cb data (startContainer cb func count ct) s (Lands data s.p) := by
  refine Prog.meets_read_bind.mpr (meets_seq (R := fun _ s' => s' = s)
    (Prog.meets_failIf (fun _ => ⟨ready, Nat.le_of_lt inside⟩) fun _ => rfl) fun _ s' same => ?_)
  obtain rfl := same
  refine meets_seq (stays_call returns ready (Nat.le_of_lt inside)) fun obj s'' called => ?_
  obtain ⟨u, rfl⟩ := called
  have ready' : Ready { s' with user := u } := ⟨ready.waits, ready.trail, ready.keyed⟩
  split
  · exact stays_pushObject ready' inside
  · refine Prog.meets_update_bind.mpr (stays_headerAgain ⟨ready.waits, ready.trail, ?_⟩ inside)
    intro c mem
    rcases List.mem_cons.mp mem with rfl | mem
    · exact fun h => absurd h noValue
    · exact ready.keyed c mem

theorem stays_raw8 (ready : Ready s) {length : UInt8} (found : data[s.p + 1]? = some length)
    (inside : s.p + 2 + trailLess length.toNat < data.length) :
    Stays cb data (raw8 cb data) s (Lands data s.p) := by
  have bound : s.p + 1 < data.length := (List.getElem?_eq_some_iff.mp found).1
  have loaded : Stays cb data (load data (s.p + 1) 1 : Machine φ τ υ ο Nat) s fun value s' =>
      s' = s ∧ value = length.toNat := by
    refine meets_seq (stays_readBytes (by omega)) fun bytes s' read => ?_
    obtain ⟨rfl, rfl⟩ := read
    refine meets_pure ⟨rfl, ?_⟩
    rw [List.drop_eq_getElem_cons bound]
    rw [List.getElem?_eq_getElem bound] at found
    simp [ofBigEndian, Option.some.inj found]
  refine Prog.meets_read_bind.mpr (meets_seq loaded fun trail s' read => ?_)
  obtain ⟨rfl, rfl⟩ := read
  have small : length.toNat < 2 ^ 32 := Nat.lt_trans length.toNat_lt (by decide)
  have body := raw8_inside found inside
  generalize trailLess length.toNat = less at inside ⊢
  refine Prog.meets_update_bind.mpr (meets_seq (stays_readBytes body) fun bytes s'' read => ?_)
  obtain ⟨rfl, -⟩ := read
  have pushed : Stays cb data (pushValue cb (.raw bytes))
      { s' with trail := length.toNat, p := s'.p + 2 + less, cs := .raw8 }
      (Lands data (s'.p + 2 + less)) :=
    stays_pushValue ⟨.inl (Nat.zero_le _), small, ready.keyed⟩ inside
  exact pushed.weaken fun _ _ lands => lands.mono (by omega)

theorem stays_variableHeader {byte : Nat} (ready : Ready s) (inside : s.p < data.length)
    (raw : byte = 0xd9 → Stays cb data (raw8 cb data) s (Lands data s.p)) :
    Stays cb data (variableHeader cb data byte) s (Lands data s.p) := by
  rw [variableHeader.eq_def]
  split
  -- the operations are told apart by their names, without a look into them
  all_goals first
    | with_reducible exact stays_pushValue ready inside
    | with_reducible exact stays_headerAgain ready inside
    | with_reducible exact raw rfl
    | with_reducible apply stays_againFixedTrail ready inside
    | exact Prog.meets_fail ⟨ready, Nat.le_of_lt inside⟩
  all_goals decide

theorem stays_header {byte : Nat} (ready : Ready s) (inside : s.p < data.length)
    (raw : byte = 0xd9 → Stays cb data (raw8 cb data) s (Lands data s.p)) :
    Stays cb data (header cb data byte) s (Lands data s.p) := by
  unfold header
  split
  · exact stays_pushValue ready inside
  split
  · exact stays_startContainer (fun total => total.map _) (by decide) ready inside
  split
  · exact stays_startContainer (fun total => total.array _) (by decide) ready inside
  split
  · split
    · exact Prog.meets_update_bind.mpr
        (stays_pushValue ⟨.inr rfl, Nat.two_pow_pos 32, ready.keyed⟩ inside)
    · exact stays_againFixedTrail ready inside (Nat.zero_le _) (by omega)
  split
  · exact stays_variableHeader ready inside raw
  · exact stays_pushValue ready inside

theorem stays_againUnlessZero {cs : UnpackState} {trail : Nat} {value : Value}
    (ready : Ready s) (inside : s.p < data.length) (width : cs.width = 0) (bound : trail < 2 ^ 32) :
    Stays cb data (againUnlessZero cb cs trail value) s (Lands data s.p) := by
  unfold againUnlessZero
  split
  · exact Prog.meets_update_bind.mpr
      (stays_pushValue ⟨.inr rfl, Nat.two_pow_pos 32, ready.keyed⟩ inside)
  · exact stays_againFixedTrail ready inside (by omega) bound

theorem stays_trailed {n : Nat} (ready : Ready s) (inside : s.p < data.length)
    (bytes : n + max s.cs.width s.trail ≤ data.length) :
    Stays cb data (trailed cb data s.cs s.trail n) s (Lands data s.p) := by
  have value {k : Nat} (fits : k ≤ s.cs.width) {f : Nat → Value} :
      Stays cb data (load data n k >>= fun v => pushValue cb (f v)) s (Lands data s.p) := by
    refine meets_seq (stays_load (by omega)) fun v s' read => ?_
    obtain ⟨rfl, -⟩ := read
    exact stays_pushValue ready inside
  have length {k : Nat} (fits : k ≤ s.cs.width) (small : k ≤ 4) {cs : UnpackState} {v : Value}
      (width : cs.width = 0) :
      Stays cb data (load data n k >>= fun l => againUnlessZero cb cs l v) s (Lands data s.p) := by
    refine meets_seq (stays_load (by omega)) fun l s' read => ?_
    obtain ⟨rfl, bound⟩ := read
    have : 256 ^ k ≤ 256 ^ 4 := Nat.pow_le_pow_right (by decide) small
    exact stays_againUnlessZero ready inside width (by omega)
  have container {k : Nat} (fits : k ≤ s.cs.width) {func : Nat → Prog Unit φ τ υ ο}
      {ct : ContainerType} (returns : cb.Total → ∀ c u, (func c u).result ≠ .diverge)
      (noValue : ct ≠ .mapValue) :
      Stays cb data (load data n k >>= fun c => startContainer cb func c ct) s (Lands data s.p) := by
    refine meets_seq (stays_load (by omega)) fun c s' read => ?_
    obtain ⟨rfl, -⟩ := read
    exact stays_startContainer (fun total => returns total c) noValue ready inside
  have body {f : Bytes → Value} :
      Stays cb data (readBytes data n s.trail >>= fun bytes => pushValue cb (f bytes)) s
        (Lands data s.p) := by
    refine meets_seq (stays_readBytes (by omega)) fun v s' read => ?_
    obtain ⟨rfl, -⟩ := read
    exact stays_pushValue ready inside
  have fails : Stays cb data (Prog.fail () : Machine φ τ υ ο Label) s (Lands data s.p) :=
    Prog.meets_fail ⟨ready, Nat.le_of_lt inside⟩
  cases cs : s.cs with
  | float | double | uint8 | uint16 | uint32 | uint64 | int8 | int16 | int32 | int64 =>
    exact value (by rw [cs]; decide)
  | bin8 | bin16 | bin32 | raw16 | raw32 => exact length (by rw [cs]; decide) (by decide) rfl
  | binValue | rawValue => exact body
  | array16 | array32 => exact container (by rw [cs]; decide) (fun total => total.array) (by decide)
  | map16 | map32 => exact container (by rw [cs]; decide) (fun total => total.map) (by decide)
  | header | raw8 => exact fails

theorem stays_step (ready : Ready s) (inside : s.p ≤ data.length)
    (size : data.length < 2 ^ 64) (keeps : StepInside data s) :
    Stays cb data (step cb data) s (Lands data s.p) := by
  refine Prog.meets_read_bind.mpr ?_
  split
  · exact meets_pure ⟨ready, inside, nofun⟩
  have less : s.p < data.length := by omega
  split
  · rename_i headerState
    refine meets_seq (stays_readByte less) fun byte s' read => ?_
    obtain ⟨rfl, found⟩ := read
    refine stays_header ready less fun isRaw => ?_
    have byte_eq : byte = 0xd9 := UInt8.toNat_inj.mp isRaw
    obtain ⟨length, there, fits⟩ := (keeps less).1 headerState (byte_eq ▸ found)
    exact stays_raw8 ready there fits
  · rename_i other
    refine Prog.meets_read_bind.mpr ?_
    have left : WordSize.eight.sub data.length s.p = data.length - s.p :=
      WordSize.sub_eq inside size
    rw [left]
    split
    · exact meets_pure ⟨ready, inside, nofun⟩
    · rename_i enough
      have bound := bytes_inside ready (keeps less).2 other (by omega)
      exact Prog.meets_update_bind.mpr
        ((stays_trailed (s := { s with p := s.p + trailLess s.trail })
          ⟨ready.waits, ready.trail, ready.keyed⟩ bound.1 bound.2).weaken
          fun _ _ lands => lands.mono (Nat.le_add_right _ _))

theorem lands_of_returns (ready : Ready s) (inside : s.p ≤ data.length)
    (size : data.length < 2 ^ 64) (keeps : StepInside data s) {label : Label} {s' : Context υ ο}
    (returns : Prog.Returns (step cb data) s label s') : Lands data s.p label s' := by
  have stays : Stays cb data (step cb data) s (Lands data s.p) :=
    stays_step ready inside size keeps
  have lands := (stays fun _ _ => trivial).2
  rw [returns.1, returns.2] at lands
  exact lands

end

variable {cb : Callbacks φ τ υ ο}

theorem stays_execute {data : Bytes} (size : data.length < 2 ^ 64)
    {fuel : Nat} {s : Context υ ο} (ready : Ready s) (inside : s.p ≤ data.length)
    (enough : data.length < s.p + fuel) (keeps : StepsInside cb data s) :
    Stays cb data (execute cb data fuel) s fun _ s' => Ready s' ∧ s'.p ≤ data.length := by
  induction fuel generalizing s with
  | zero => omega
  | succ fuel ih =>
    intro _
    refine Prog.meets_bind (R := fun r s' =>
      (insideData cb data).orElse (Lands data s.p) r s' ∧
        ∀ label, r = .ok label → Prog.Returns (step cb data) s label s') ?_ ?_
      (fun _ _ h => h.1) (fun _ _ h => h.1) (fun _ h => h.1) (fun _ _ => trivial)
    · intro _
      have stays : Stays cb data (step cb data) s (Lands data s.p) :=
        stays_step ready inside size (keeps s (.here s))
      have lands := stays fun _ _ => trivial
      exact ⟨lands.1, lands.2, fun label same => ⟨same, rfl⟩⟩
    · intro label s' reached
      obtain ⟨⟨ready', inside', forward⟩, returns⟩ := reached
      cases label with
      | again =>
        exact ih ready' inside' (by have := forward rfl; omega) fun s'' visit =>
          keeps s'' (.next (returns _ rfl) visit)
      | out => exact meets_pure ⟨ready', inside'⟩
      | finish => exact meets_pure ⟨ready', inside'⟩

/-- The contexts that calls leave behind, beginning with `template_init`: every
call gets data and an offset inside it, and every step of it satisfies the
condition. Between two calls the callbacks' state may be changed. -/
inductive Reachable (cb : Callbacks φ τ υ ο) : Context υ ο → Prop where
  | init (user : υ) : Reachable cb (.init user)
  | call {s : Context υ ο} (reached : Reachable cb s) (data : Bytes)
      (size : data.length < 2 ^ 64) (off : Nat) (inside : off ≤ data.length)
      (keeps : StepsInside cb data { s with p := off }) (fuel : Nat)
      (enough : data.length < fuel)
      (returned : ∀ access, (execute cb data fuel { s with p := off }).result ≠ .fault access)
      (user : υ) :
      Reachable cb { (execute cb data fuel { s with p := off }).state with user := user }

theorem Reachable.ready (total : cb.Total) {s : Context υ ο} (reached : Reachable cb s) :
    Ready s := by
  induction reached with
  | init user => exact ⟨.inl (Nat.zero_le _), Nat.two_pow_pos 32, nofun⟩
  | @call s _ data size off inside keeps fuel enough returned user ih =>
    have stays : Stays cb data (execute cb data fuel) { s with p := off } fun _ s' =>
        Ready s' ∧ s'.p ≤ data.length :=
      stays_execute size ⟨ih.waits, ih.trail, ih.keyed⟩ inside
        (Nat.lt_add_left off enough) keeps
    have ends := (stays fun _ _ => trivial).2
    have ready : Ready (execute cb data fuel { s with p := off }).state := by
      cases result : (execute cb data fuel { s with p := off }).result with
      | ok ret => rw [result] at ends; exact ends.1
      | error e => rw [result] at ends; exact ends.1
      | fault x => exact absurd result (returned x)
      | diverge => rw [result] at ends; exact absurd total ends
    exact ⟨ready.waits, ready.trail, ready.keyed⟩

end PhpExts.Msgpack
