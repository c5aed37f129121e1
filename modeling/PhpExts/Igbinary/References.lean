import PhpExts.Igbinary.Unserialize

/-!
# The references table of the igbinary decoder

The references table records zvals without counting them, so a recorded zval
dangles as soon as its last count is dropped. For input without objects the
decoder drops counts in two kinds of steps: it releases one zval (a value that a
duplicate key displaces, or a value that failed to decode), or the contents of
an array after a failure inside it.

Between these steps the heap is `Sound` for the table: every array is recorded,
so a zval that is not recorded holds nothing. A step that keeps a count of every
recorded zval it releases (`Step.KeepsReferences`) keeps this. The table never
dangles in a run exactly when every step of the run does so
(`references_live_iff`).
-/

namespace PhpExts.Igbinary

open PhpExts.Zend PhpExts.Library
open Prog (meets_announce_bind meets_seq meets_update)

def UnserializeData.Live (s : UnserializeData) : Prop :=
  ∀ a ∈ s.references, 0 < s.heap.refcount a

/-- The step drops fewer counts of a recorded zval than the zval has. -/
def Step.KeepsReferences (step : Step) : Prop :=
  match step.event with
  | .destroy a => a ∈ step.before.references → 1 < step.before.heap.refcount a
  | .destroyContents z =>
    ∀ a ∈ (hashOf step.before.heap z).values, a ∈ step.before.references →
      (hashOf step.before.heap z).values.count a < step.before.heap.refcount a
  | _ => True

/-- A heap of counted zvals without objects, in which every array is recorded,
apart from those `pending`, and every recorded zval is live. -/
structure Sound (pending : Addr → Prop) (h : Heap) (references : List Addr) : Prop where
  counted : ∀ a cell, h.zvals a = some cell → 0 < cell.refcount
  noObject : ∀ a o, h.value a ≠ some (.object o)
  recorded : ∀ a table, h.value a = some (.array table) → pending a ∨ a ∈ references
  live : ∀ a ∈ references, 0 < h.refcount a

abbrev Settled (s : UnserializeData) : Prop := Sound (fun _ => False) s.heap s.references

section

variable {pending : Addr → Prop} {h : Heap} {references : List Addr} {a : Addr}

theorem zvals_of_refcount_pos (pos : 0 < h.refcount a) :
    ∃ cell, h.zvals a = some cell ∧ h.refcount a = cell.refcount := by
  rcases cell : h.zvals a with _ | z
  · simp [Heap.refcount, cell] at pos
  · exact ⟨z, rfl, by simp [Heap.refcount, cell]⟩

theorem value_setZval {b : Addr} {cell : Option Zval} :
    (h.setZval a cell).value b = if b = a then cell.map Zval.value else h.value b := by
  by_cases same : b = a
  · simp [Heap.value, Heap.setZval, same]
  · simp [Heap.value, Heap.setZval, same]

theorem Sound.setZval {P : Addr → Prop} (sound : Sound pending h references)
    (cell : Option Zval) (counted : ∀ z, cell = some z → 0 < z.refcount)
    (noObject : ∀ z o, cell = some z → z.value ≠ .object o)
    (recorded : ∀ z table, cell = some z → z.value = .array table → P a ∨ a ∈ references)
    (stays : a ∈ references → cell ≠ none) (keeps : ∀ b, b ≠ a → pending b → P b) :
    Sound P (h.setZval a cell) references := by
  refine ⟨fun b z found => ?_, fun b o found => ?_, fun b table found => ?_, fun b mem => ?_⟩
  · by_cases same : b = a
    · subst same
      exact counted z (by simpa [Heap.setZval] using found)
    · exact sound.counted b z (by simpa [Heap.setZval, same] using found)
  · rw [value_setZval] at found
    by_cases same : b = a
    · rw [if_pos same] at found
      obtain ⟨z, rfl, value⟩ := Option.map_eq_some_iff.mp found
      exact noObject z o rfl value
    · rw [if_neg same] at found
      exact sound.noObject b o found
  · rw [value_setZval] at found
    by_cases same : b = a
    · rw [if_pos same] at found
      obtain ⟨z, rfl, value⟩ := Option.map_eq_some_iff.mp found
      exact same ▸ recorded z table rfl value
    · rw [if_neg same] at found
      exact (sound.recorded b table found).imp_left (keeps b same)
  · rw [Heap.refcount_setZval]
    by_cases same : b = a
    · rw [if_pos same]
      rcases cell with _ | z
      · exact absurd rfl (stays (same ▸ mem))
      · exact counted z rfl
    · rw [if_neg same]
      exact sound.live b mem

theorem Sound.setValue (sound : Sound pending h references) {v : ZValue} {P : Addr → Prop}
    (noObject : ∀ o, v ≠ .object o) (recorded : ∀ table, v = .array table → P a)
    (keeps : ∀ b, pending b → P b) : Sound P (h.setValue a v) references := by
  refine sound.setZval _ (fun z found => ?_) (fun z o found => ?_) (fun z table found value => ?_)
    (fun mem => ?_) (fun b _ => keeps b)
  · obtain ⟨old, there, rfl⟩ := Option.map_eq_some_iff.mp found
    exact sound.counted a old there
  · obtain ⟨old, there, rfl⟩ := Option.map_eq_some_iff.mp found
    exact noObject o
  · obtain ⟨old, there, rfl⟩ := Option.map_eq_some_iff.mp found
    exact .inl (recorded table value)
  · obtain ⟨old, there, -⟩ := zvals_of_refcount_pos (sound.live a mem)
    simp [there]

theorem Sound.modifyZval (sound : Sound pending h references) {f : Zval → Zval}
    (sameValue : ∀ z, (f z).value = z.value) (counted : ∀ z, 0 < z.refcount → 0 < (f z).refcount) :
    Sound pending (h.modifyZval a f) references := by
  refine sound.setZval _ (fun z found => ?_) (fun z o found => ?_) (fun z table found value => ?_)
    (fun mem => ?_) (fun b _ => id)
  · obtain ⟨old, there, rfl⟩ := Option.map_eq_some_iff.mp found
    exact counted old (sound.counted a old there)
  · obtain ⟨old, there, rfl⟩ := Option.map_eq_some_iff.mp found
    have := sound.noObject a o
    rw [sameValue]
    simpa [Heap.value, there] using this
  · obtain ⟨old, there, rfl⟩ := Option.map_eq_some_iff.mp found
    rw [sameValue] at value
    exact sound.recorded a table (by simpa [Heap.value, there] using value)
  · obtain ⟨old, there, -⟩ := zvals_of_refcount_pos (sound.live a mem)
    simp [there]

theorem Sound.addRef (sound : Sound pending h references) :
    Sound pending (h.addRef a) references := by
  apply sound.modifyZval
  · intro z
    rfl
  · intro z _
    exact Nat.succ_pos _

theorem Sound.setIsRef (sound : Sound pending h references) {mark : Bool} :
    Sound pending (h.setIsRef a mark) references := by
  apply sound.modifyZval
  · intro z
    rfl
  · intro z positive
    exact positive

theorem Sound.allocInitZval (sound : Sound pending h references) :
    Sound pending h.allocInitZval references := by
  have fresh := sound.setZval (P := pending) (a := h.nextAddr) (some ⟨.null, 1, false⟩)
    (fun z found => by cases found; exact Nat.one_pos) (fun z o found => by cases found; simp)
    (fun z table found => by cases found; simp) (fun _ => by simp) (fun b _ => id)
  exact ⟨fresh.counted, fresh.noObject, fresh.recorded, fresh.live⟩

theorem Sound.register (sound : Sound pending h references) (live : 0 < h.refcount a) :
    Sound (fun b => pending b ∧ b ≠ a) h (references ++ [a]) := by
  refine ⟨sound.counted, sound.noObject, fun b table found => ?_, fun b mem => ?_⟩
  · by_cases same : b = a
    · exact .inr (by simp [same])
    · exact (sound.recorded b table found).imp (fun holds => ⟨holds, same⟩)
        (List.mem_append_left _)
  · rcases List.mem_append.mp mem with old | new
    · exact sound.live b old
    · rw [List.mem_singleton.mp new]
      exact live

theorem Sound.ptrDtor (sound : Sound (fun _ => False) h references)
    (keeps : a ∈ references → 1 < h.refcount a) : Sound (fun _ => False) (h.ptrDtor a) references ∧
      ∀ b, b ≠ a → (h.ptrDtor a).refcount b = h.refcount b := by
  rcases found : h.zvals a with _ | z
  · have same : h.ptrDtor a = h := by simp [Heap.ptrDtor, Heap.ptrDtorDepth, found]
    rw [same]
    exact ⟨sound, fun _ _ => rfl⟩
  · have count : h.refcount a = z.refcount := by simp [Heap.refcount, found]
    have value : h.value a = some z.value := by simp [Heap.value, found]
    by_cases shared : 1 < z.refcount
    · have opened : h.ptrDtor a = h.setZval a (some { z with
          refcount := z.refcount - 1
          isRef := if z.refcount = 2 then false else z.isRef }) := by
        simp [Heap.ptrDtor, Heap.ptrDtorDepth, found, shared]
      rw [opened]
      refine ⟨sound.setZval _ (fun y eq => ?_) (fun y o eq => ?_) (fun y table eq holds => ?_)
        (fun _ => by simp) (fun b _ => id), fun b other => by
          rw [Heap.refcount_setZval, if_neg other]⟩
      · cases eq
        change 0 < z.refcount - 1
        omega
      · cases eq
        exact fun holds => sound.noObject a o (by rw [value]; exact congrArg some holds)
      · cases eq
        exact sound.recorded a table (by rw [value]; exact congrArg some holds)
    · have unrecorded : a ∉ references := fun mem => shared (count ▸ keeps mem)
      -- an unrecorded zval holds nothing, so freeing it ends at its own cell
      have opened : h.ptrDtor a = h.setZval a none := by
        simp only [Heap.ptrDtor, Heap.ptrDtorDepth, found, shared, if_false]
        cases holds : z.value with
        | array table =>
          rcases sound.recorded a table (by rw [value, holds]) with no | mem
          · exact no.elim
          · exact absurd mem unrecorded
        | object o => exact absurd (by rw [value, holds]) (sound.noObject a o)
        | _ => rfl
      rw [opened]
      exact ⟨sound.setZval _ (by simp) (by simp) (by simp) (fun mem => absurd mem unrecorded)
        (fun b _ => id), fun b other => by rw [Heap.refcount_setZval, if_neg other]⟩

theorem Sound.foldl_ptrDtor (sound : Sound (fun _ => False) h references) {as : List Addr}
    (keeps : ∀ a ∈ as, a ∈ references → as.count a < h.refcount a) :
    Sound (fun _ => False) (as.foldl Heap.ptrDtor h) references := by
  induction as generalizing h with
  | nil => exact sound
  | cons a as ih =>
    have first : a ∈ references → 1 < h.refcount a := fun mem => by
      have := keeps a (.head _) mem
      rw [List.count_cons_self] at this
      omega
    obtain ⟨released, others⟩ := sound.ptrDtor first
    refine ih released fun b mem recorded => ?_
    have bound := keeps b (.tail _ mem) recorded
    by_cases same : b = a
    · subst same
      rw [List.count_cons_self] at bound
      obtain ⟨z, found, count⟩ := zvals_of_refcount_pos (sound.live b recorded)
      have shared : 1 < z.refcount := by omega
      have dropped : (h.ptrDtor b).refcount b = z.refcount - 1 := by
        simp [Heap.ptrDtor, Heap.ptrDtorDepth, found, shared, Heap.refcount_setZval]
      omega
    · rw [others b same]
      rwa [List.count_cons_of_ne (Ne.symm same)] at bound

theorem Sound.dtorToNull (sound : Sound (fun _ => False) h references)
    (keeps : ∀ b ∈ (hashOf h a).values, b ∈ references →
      (hashOf h a).values.count b < h.refcount b) :
    Sound (fun _ => False) (h.dtorToNull a) references := by
  have setNull : ∀ {h : Heap}, Sound (fun _ => False) h references →
      Sound (fun _ => False) (h.setValue a .null) references := fun sound =>
    sound.setValue (by simp) (by simp) (fun _ => id)
  simp only [Heap.dtorToNull]
  rcases holds : h.value a with _ | v
  · exact sound
  · cases v with
    | array table =>
      simp only [hashOf, holds] at keeps
      exact setNull (sound.foldl_ptrDtor keeps)
    | object o => exact absurd holds (sound.noObject a o)
    | _ => exact setNull sound

end

/-! ## Programs that keep the heap sound -/

/-- A step of a run without objects that keeps a count of every recorded zval, or
after which all of them are live. -/
def Step.Allowed (step : Step) : Prop :=
  step.event ≠ .object ∧ (step.KeepsReferences ∨ step.after.Live)

/-- A step that keeps a count of every recorded zval, between two states in which
all of them are live. -/
def Step.Shown (step : Step) : Prop :=
  step.KeepsReferences ∧ step.before.Live ∧ step.after.Live

def settles : Prog.Stop Warning Fault UnserializeData where
  error _ s := Settled s
  fault _ s := Settled s
  diverge s := Settled s

/-- If every step of the program is allowed, every step is as shown and the
program ends in a sound heap, with `post` if it returns. -/
abbrev Maintains {α : Type} (m : Dec α) (s : UnserializeData)
    (post : α → UnserializeData → Prop) : Prop :=
  Prog.Meets Step.Allowed Step.Shown m s (settles.orElse post)

def Quiet {α : Type} (m : Dec α) : Prop :=
  ∀ s, Settled s → Maintains m s fun _ s' =>
    s'.heap = s.heap ∧ s'.references = s.references

def Safe {α : Type} (m : Dec α) : Prop :=
  ∀ s, Settled s → Maintains m s fun _ s' => Settled s'

def SafeFor {α : Type} (z : Addr) (m : Dec α) : Prop :=
  ∀ s, Settled s → 0 < s.heap.refcount z → Maintains m s fun _ s' => Settled s'

section

variable {α β : Type} {m : Dec α} {f : α → Dec β} {s : UnserializeData} {z : Addr}

theorem Quiet.pure {a : α} : Quiet (Pure.pure a : Dec α) := fun _ _ => by simp

theorem Quiet.fail {warning : Warning} : Quiet (Prog.fail warning : Dec α) :=
  fun _ settled => Prog.meets_fail settled

theorem Quiet.crash {access : Fault} : Quiet (Prog.crash access : Dec α) :=
  fun _ settled => Prog.meets_crash settled

theorem Quiet.failIf {condition : Prop} [Decidable condition] {warning : Warning} :
    Quiet (Prog.failIf condition warning : Dec Unit) :=
  fun _ settled => Prog.meets_failIf (fun _ => settled) fun _ => ⟨rfl, rfl⟩

theorem Quiet.bind (first : Quiet m) (next : ∀ a, Quiet (f a)) : Quiet (m >>= f) :=
  fun s settled => meets_seq (first s settled) fun a s' same =>
    (next a s' (by rw [Settled, same.1, same.2]; exact settled)).weaken fun _ _ same' =>
      ⟨same'.1.trans same.1, same'.2.trans same.2⟩

theorem Quiet.read {f : UnserializeData → Dec β} (next : ∀ s, Quiet (f s)) :
    Quiet (Prog.read >>= f) := fun s settled => Prog.meets_read_bind.mpr (next s s settled)

theorem Quiet.update {f : UnserializeData → UnserializeData}
    (same : ∀ s, (f s).heap = s.heap ∧ (f s).references = s.references) :
    Quiet (Prog.update f : Dec Unit) := fun s _ => meets_update (same s)

theorem Quiet.warn {warning : Warning} : Quiet (Dec.warn warning) :=
  .update fun _ => ⟨rfl, rfl⟩

theorem maintains_step {event : Event} {f : UnserializeData → UnserializeData}
    (ordinary : ∀ before after, (Step.mk event before after).KeepsReferences) (before : s.Live)
    (after : (f s).Live) : Maintains (Dec.step event f) s fun _ s' => s' = f s :=
  meets_announce_bind fun _ => ⟨⟨ordinary _ _, before, after⟩, by simp⟩

theorem Quiet.log {event : Event}
    (ordinary : ∀ before after, (Step.mk event before after).KeepsReferences) :
    Quiet (Dec.log event) :=
  fun s settled => (maintains_step (f := id) ordinary settled.live settled.live).weaken
    fun _ s' same => by
      rw [same]
      exact ⟨rfl, rfl⟩

theorem Quiet.take {offset length : Nat} : Quiet (Dec.log (.take offset length)) :=
  .log fun _ _ => by trivial

theorem Quiet.takeUnchecked {offset length : Nat} :
    Quiet (Dec.log (.takeUnchecked offset length)) :=
  .log fun _ _ => by trivial

theorem Quiet.safe (quiet : Quiet m) : Safe m := fun s settled =>
  (quiet s settled).weaken fun _ _ same => by rw [Settled, same.1, same.2]; exact settled

theorem Safe.bind (first : Safe m) (next : ∀ a, Safe (f a)) : Safe (m >>= f) :=
  fun s settled => meets_seq (first s settled) fun a s' settled' => next a s' settled'

theorem Safe.read {f : UnserializeData → Dec β} (next : ∀ s, Safe (f s)) :
    Safe (Prog.read >>= f) := fun s settled => Prog.meets_read_bind.mpr (next s s settled)

theorem Safe.for (safe : Safe m) : SafeFor z m := fun s settled _ => safe s settled

theorem SafeFor.bind (first : Quiet m) (next : ∀ a, SafeFor z (f a)) : SafeFor z (m >>= f) :=
  fun s settled live => meets_seq (first s settled) fun a s' same =>
    next a s' (by rw [Settled, same.1, same.2]; exact settled) (by rw [same.1]; exact live)

theorem SafeFor.read {f : UnserializeData → Dec β} (next : ∀ s, SafeFor z (f s)) :
    SafeFor z (Prog.read >>= f) :=
  fun s settled live => Prog.meets_read_bind.mpr (next s s settled live)

theorem Safe.onError {cleanup : Dec Unit} (safe : Safe m) (clean : Safe cleanup) :
    Safe (Prog.onError m cleanup) := by
  intro s settled
  refine Prog.meets_onError (safe s settled) (fun r s' noError holds => ?_)
    fun e s' settled' => ?_
  · cases r with
    | error e => exact absurd rfl (noError e)
    | _ => exact holds
  · exact meets_seq (clean s' settled') fun _ _ settled'' => Prog.meets_fail settled''

theorem SafeFor.onError {cleanup : Dec Unit} (safe : SafeFor z m) (clean : Safe cleanup) :
    SafeFor z (Prog.onError m cleanup) := by
  intro s settled live
  refine Prog.meets_onError (safe s settled live) (fun r s' noError holds => ?_)
    fun e s' settled' => ?_
  · cases r with
    | error e => exact absurd rfl (noError e)
    | _ => exact holds
  · exact meets_seq (clean s' settled') fun _ _ settled'' => Prog.meets_fail settled''

end

/-! ## Steps on the heap -/

section

variable {s : UnserializeData} {z : Addr}

theorem safe_onHeap {f : Heap → Heap} (keeps : ∀ h references, Sound (fun _ => False) h references →
      Sound (fun _ => False) (f h) references) : Safe (Dec.onHeap .change f) := by
  intro s settled
  have sound := keeps _ _ settled
  have step : Maintains (Dec.onHeap .change f) s fun _ s' => s' = { s with heap := f s.heap } :=
    maintains_step (fun _ _ => by trivial) settled.live sound.live
  exact step.weaken fun _ s' same => by
    rw [same]
    exact sound

theorem safe_setValue {v : ZValue} (noObject : ∀ o, v ≠ .object o)
    (noArray : ∀ table, v ≠ .array table) : Safe (Dec.setValue z v) :=
  safe_onHeap fun _ _ sound =>
    sound.setValue noObject (fun table same => absurd same (noArray table)) fun _ => id

theorem maintains_allocInitZval (settled : Settled s) :
    Maintains Dec.allocInitZval s fun v s' => Settled s' ∧ 0 < s'.heap.refcount v := by
  have sound := settled.allocInitZval
  refine Prog.meets_read_bind.mpr (meets_seq
    (maintains_step (fun _ _ => by trivial) settled.live sound.live) fun _ s' same => ?_)
  obtain rfl := same
  exact Prog.meets_pure ⟨sound, by simp [Heap.refcount, Heap.allocInitZval]⟩

theorem safe_ptrDtor {a : Addr} : Safe (Dec.ptrDtor a) := by
  refine fun s settled => meets_announce_bind fun allowed => ?_
  have keeps : a ∈ s.references → 1 < s.heap.refcount a := by
    rcases allowed.2 with keeps | live
    · exact keeps
    · intro mem
      have := live a mem
      have := Heap.refcount_ptrDtor_self_le s.heap a
      simp only at *
      omega
  have sound := (settled.ptrDtor keeps).1
  exact ⟨⟨keeps, settled.live, sound.live⟩, meets_update sound⟩

theorem refcount_setValue {h : Heap} {v : ZValue} (b : Addr) :
    (h.setValue z v).refcount b = h.refcount b := by
  rw [Heap.setValue, Heap.modifyZval, Heap.refcount_setZval]
  split
  · rename_i same
    subst same
    rcases found : h.zvals b with _ | cell <;> simp [Heap.refcount, found]
  · rfl

theorem safe_dtorToNull : Safe (Dec.dtorToNull z) := by
  refine fun s settled => meets_announce_bind fun allowed => ?_
  have keeps : ∀ b ∈ (hashOf s.heap z).values, b ∈ s.references →
      (hashOf s.heap z).values.count b < s.heap.refcount b := by
    rcases allowed.2 with keeps | live
    · exact keeps
    · intro b mem recorded
      have after := live b recorded
      rcases holds : s.heap.value z with _ | v
      · simp [hashOf, holds, HashTable.values, HashTable.empty] at mem
      · cases v with
        | array table =>
          simp only [hashOf, holds] at mem ⊢
          have dropped := Heap.refcount_foldl_ptrDtor_le s.heap table.values b
          simp only [Heap.dtorToNull, holds, Heap.dtorValue, refcount_setValue] at after
          omega
        | object o => exact absurd holds (settled.noObject z o)
        | _ => simp [hashOf, holds, HashTable.values, HashTable.empty] at mem
  have sound := settled.dtorToNull keeps
  exact ⟨⟨keeps, settled.live, sound.live⟩, meets_update sound⟩

theorem safeFor_beginArray : SafeFor z (beginArray z false) := by
  intro s settled live
  have array : Sound (fun a => a = z) (s.heap.setValue z (.array .empty)) s.references :=
    settled.setValue (by simp) (fun _ _ => rfl) fun _ no => no.elim
  refine meets_seq (maintains_step (fun _ _ => by trivial) settled.live array.live)
    fun _ s' same => ?_
  obtain rfl := same
  have recorded := array.register (a := z) (by rw [refcount_setValue]; exact live)
  have sound : Sound (fun _ => False) (s.heap.setValue z (.array .empty))
      (s.references ++ [z]) :=
    ⟨recorded.counted, recorded.noObject,
      fun b table found => (recorded.recorded b table found).imp_left fun no => no.2 no.1,
      recorded.live⟩
  exact meets_announce_bind fun _ =>
    ⟨⟨by trivial, array.live, sound.live⟩, meets_update sound⟩

theorem safe_setHashOf {table : Heap → HashTable Addr} :
    Safe (Dec.onHeap .change fun h => setHashOf h z (table h)) := by
  refine safe_onHeap fun h references sound => ?_
  simp only [setHashOf]
  rcases holds : h.value z with _ | v
  · exact sound
  · cases v with
    | array old =>
      have kept : Sound (fun a => a = z) (h.setValue z (.array (table h))) references :=
        sound.setValue (by simp) (fun _ _ => rfl) fun _ no => no.elim
      refine ⟨kept.counted, kept.noObject, fun b t found => ?_, kept.live⟩
      rcases kept.recorded b t found with rfl | recorded
      · exact sound.recorded b old holds
      · exact .inr recorded
    | object o => exact absurd holds (sound.noObject z o)
    | _ => exact sound

end

section

variable {env : Env}

theorem quiet_readByte {i : Nat} : Quiet (readByte env i) := by
  rw [readByte]
  split
  · exact .pure
  · exact .crash

theorem quiet_readBytes {i n : Nat} : Quiet (readBytes env i n) := by
  induction n generalizing i with
  | zero => exact .pure
  | succ n ih => exact .bind quiet_readByte fun _ => .bind ih fun _ => .pure

theorem quiet_checkData {function : String} {n : Nat} : Quiet (checkData env function n) :=
  .read fun _ => .bind .take fun _ => .failIf

theorem quiet_unserializeNumber {n : Nat} : Quiet (unserializeNumber env n) :=
  .read fun _ => .bind quiet_readBytes fun _ => .bind (.update fun _ => ⟨rfl, rfl⟩) fun _ => .pure

theorem quiet_unserializeSized {function : String} {n : Nat} :
    Quiet (unserializeSized env function n) :=
  .bind quiet_checkData fun _ => quiet_unserializeNumber

theorem quiet_unserializeType : Quiet (unserializeType env) :=
  .read fun _ => .bind quiet_readByte fun _ => .bind (.update fun _ => ⟨rfl, rfl⟩) fun _ => .pure

theorem quiet_headerWarning {version i n : Nat} : Quiet (headerWarning env version i n) := by
  induction n generalizing i with
  | zero => exact .bind quiet_readBytes fun _ => .pure
  | succ n ih =>
    refine .bind quiet_readByte fun byte => ?_
    split
    · exact ih
    · split <;> exact .pure

theorem quiet_unserializeHeader : Quiet (unserializeHeader env) := by
  refine .read fun _ => .bind .take fun _ => .bind .failIf fun _ => ?_
  refine .bind quiet_unserializeNumber fun version => ?_
  split
  · exact .pure
  · exact .bind quiet_headerWarning fun _ => .fail

theorem quiet_unserializeLong {t : IgType} : Quiet (unserializeLong env t) := by
  cases t with
  | long8p | long8n | long16p | long16n => exact .bind quiet_unserializeSized fun _ => .pure
  | long32p | long32n =>
    refine .bind quiet_unserializeSized fun value => ?_
    split
    · exact .bind .warn fun _ => .pure
    · exact .pure
  | long64p | long64n =>
    simp only [unserializeLong]
    split
    · refine .bind quiet_unserializeSized fun value => ?_
      split
      · exact .bind .warn fun _ => .pure
      · exact .pure
    · exact .read fun _ => .bind .takeUnchecked fun _ =>
        .bind quiet_unserializeNumber fun _ => .bind .warn fun _ => .pure
  | _ => exact .read fun _ => .fail

theorem quiet_unserializeDouble : Quiet (unserializeDouble env) :=
  .bind quiet_checkData fun _ => quiet_unserializeNumber

theorem quiet_unserializeString {t : IgType} : Quiet (unserializeString env t) := by
  cases t with
  | stringId8 | objectId8 | stringId16 | objectId16 | stringId32 | objectId32 =>
    refine .bind quiet_unserializeSized fun i => .read fun s => ?_
    cases s.strings[i]? with
    | none => exact .fail
    | some piece => exact .pure
  | _ => exact .read fun _ => .fail

theorem quiet_unserializeChararray {t : IgType} : Quiet (unserializeChararray env t) := by
  cases t with
  | string8 | object8 | string16 | object16 | string32 | object32 =>
    exact .bind quiet_unserializeSized fun l => .bind quiet_checkData fun _ => .read fun s =>
      .bind (.update fun _ => ⟨rfl, rfl⟩) fun _ => .bind (.update fun _ => ⟨rfl, rfl⟩) fun _ =>
        .pure
  | _ => exact .read fun _ => .fail

theorem quiet_unserializeKey : Quiet (unserializeKey env) := by
  refine .bind quiet_checkData fun _ => .bind quiet_unserializeType fun byte => ?_
  split
  all_goals first
    | exact Quiet.bind quiet_unserializeLong fun _ => .pure
    | exact Quiet.bind quiet_unserializeString fun _ => .pure
    | exact Quiet.bind quiet_unserializeChararray fun _ => .pure
    | exact Quiet.pure
    | exact Quiet.read fun _ => .fail

theorem quiet_elementKey {object : Bool} {key : ElementKey} :
    Quiet (elementKey env object key) := by
  cases key with
  | piece offset length => exact .bind quiet_readBytes fun _ => .pure
  | _ => exact .pure

end

section

variable {env : Env} {nested : Addr → Dec Addr} {z : Addr}

theorem safe_storeElement {v : Addr} {key : HashKey} : Safe (storeElement env z key v) := by
  refine .read fun s => ?_
  cases (hashOf s.heap z).find key with
  | some old => exact .bind safe_ptrDtor fun _ => safe_setHashOf
  | none => exact safe_setHashOf

theorem safe_unserializeElement (inner : ∀ z, SafeFor z (nested z)) {object : Bool} :
    Safe (unserializeElement env nested z object) := by
  refine .bind (.onError quiet_unserializeKey.safe safe_dtorToNull) fun key => ?_
  have value : Safe (do
      let v ← Dec.allocInitZval
      let v ← Prog.onError (nested v) (do
        Dec.dtorToNull z
        Dec.ptrDtor v)
      let key ← elementKey env object key
      storeElement env z key v) := by
    intro s settled
    refine meets_seq (maintains_allocInitZval settled) fun v s' fresh => ?_
    have decoded : SafeFor v (Prog.onError (nested v) (do
        Dec.dtorToNull z
        Dec.ptrDtor v)) :=
      (inner v).onError (.bind safe_dtorToNull fun _ => safe_ptrDtor)
    refine meets_seq (decoded s' fresh.1 fresh.2) fun v' s'' settled'' => ?_
    exact Safe.bind quiet_elementKey.safe (fun key => safe_storeElement) s'' settled''
  cases key with
  | skip => exact Quiet.pure.safe
  | _ => exact value

theorem safe_unserializeElements (inner : ∀ z, SafeFor z (nested z)) {object : Bool}
    {n : Nat} : Safe (unserializeElements env nested z object n) := by
  induction n with
  | zero => exact Quiet.pure.safe
  | succ n ih => exact .bind (safe_unserializeElement inner) fun _ => ih

theorem safeFor_unserializeArray (inner : ∀ z, SafeFor z (nested z)) {t : IgType} :
    SafeFor z (unserializeArray env nested t z false) := by
  cases t with
  | array8 | array16 | array32 =>
    refine .bind quiet_unserializeSized fun n => .read fun s => .bind .failIf fun _ => ?_
    exact fun s settled live => meets_seq (safeFor_beginArray s settled live)
      fun _ s' settled' => safe_unserializeElements inner s' settled'
  | _ => exact (Quiet.read fun _ => .fail).safe.for

/-! ## References and values -/

theorem safe_unserializeRef {t : IgType} : Safe (unserializeRef env t z) := by
  have keepCount {a : Addr} : Safe (Dec.onHeap .change fun h => h.addRef a) :=
    safe_onHeap fun _ _ sound => sound.addRef
  have unmark {a : Addr} : Safe (Dec.onHeap .change fun h => h.setIsRef a false) :=
    safe_onHeap fun _ _ sound => sound.setIsRef
  have zval {a : Addr} : Safe (Dec.zval a) := by
    refine .read fun s => ?_
    cases s.heap.zvals a with
    | some cell => exact Quiet.pure.safe
    | none => exact Quiet.crash.safe
  cases t with
  | ref8 | ref16 | ref32 =>
    refine .bind quiet_unserializeSized.safe fun n => .read fun s => ?_
    cases s.references[n]? with
    | none => exact Quiet.fail.safe
    | some a =>
      exact .bind safe_ptrDtor fun _ => .bind zval fun _ => .bind keepCount fun _ =>
        Quiet.pure.safe
  | objref8 | objref16 | objref32 =>
    refine .bind quiet_unserializeSized.safe fun n => .read fun s => ?_
    cases s.references[n]? with
    | none => exact Quiet.fail.safe
    | some a =>
      exact .bind safe_ptrDtor fun _ => .bind zval fun _ => .bind keepCount fun _ =>
        .bind unmark fun _ => Quiet.pure.safe
  | _ => exact (Quiet.read fun _ => .fail).safe

theorem maintains_zval {s : UnserializeData} (settled : Settled s) {a : Addr} :
    Maintains (Dec.zval a) s fun cell s' => s' = s ∧ s.heap.zvals a = some cell := by
  refine Prog.meets_read_bind.mpr ?_
  rcases found : s.heap.zvals a with _ | cell
  · exact Prog.meets_crash settled
  · exact Prog.meets_pure ⟨rfl, rfl⟩

theorem safeFor_unserializeSimpleRef (inner : ∀ z, SafeFor z (nested z)) :
    SafeFor z (unserializeSimpleRef nested z) := by
  intro s settled live
  refine meets_seq (inner z s settled live) fun v s₁ settled₁ => ?_
  refine meets_seq (maintains_zval settled₁) fun cell s₂ found => ?_
  obtain ⟨rfl, found⟩ := found
  have mark : Safe (do
      Dec.onHeap .change fun h => h.setIsRef v true
      return v) := .bind (safe_onHeap fun _ _ sound => sound.setIsRef) fun _ => Quiet.pure.safe
  split
  · have counted : 0 < s₂.heap.refcount v := by
      simpa [Heap.refcount, found] using settled₁.counted v cell found
    have recorded := settled₁.register counted
    have sound : Sound (fun _ => False) s₂.heap (s₂.references ++ [v]) :=
      ⟨recorded.counted, recorded.noObject,
        fun b table holds => (recorded.recorded b table holds).imp_left And.left, recorded.live⟩
    have register : Maintains (Dec.register v) s₂ fun _ s' => Settled s' :=
      meets_announce_bind fun _ =>
        ⟨⟨by trivial, settled₁.live, sound.live⟩, meets_update sound⟩
    exact meets_seq register fun _ s₃ settled₃ => mark s₃ settled₃
  · exact mark s₂ settled₁

theorem safeFor_unserializeObject {t : IgType} :
    SafeFor z (unserializeObject env nested t z) := fun _ _ _ =>
  meets_seq (R := fun _ _ => False)
    (meets_announce_bind fun allowed => absurd rfl allowed.1) fun _ _ no => no.elim

theorem safeFor_unserializeTyped (inner : ∀ z, SafeFor z (nested z)) {t : IgType} :
    SafeFor z (unserializeTyped env nested t z) := by
  have set {v : ZValue} (noObject : ∀ o, v ≠ .object o) (noArray : ∀ table, v ≠ .array table) :
      Safe (do
        Dec.setValue z v
        return z) := .bind (safe_setValue noObject noArray) fun _ => Quiet.pure.safe
  have string {piece : Nat × Nat} : Safe (setString env z piece) :=
    .bind quiet_readBytes.safe fun _ => set (by simp) (by simp)
  cases t with
  | ref => exact safeFor_unserializeSimpleRef inner
  | objref8 | objref16 | objref32 | ref8 | ref16 | ref32 => exact safe_unserializeRef.for
  | object8 | object16 | object32 | objectId8 | objectId16 | objectId32 =>
    exact fun s settled live => meets_seq (safeFor_unserializeObject s settled live)
      fun _ s' settled' => Quiet.pure.safe s' settled'
  | array8 | array16 | array32 =>
    exact fun s settled live => meets_seq (safeFor_unserializeArray inner s settled live)
      fun _ s' settled' => Quiet.pure.safe s' settled'
  | stringId8 | stringId16 | stringId32 =>
    exact (Safe.bind quiet_unserializeString.safe fun _ => string).for
  | string8 | string16 | string32 =>
    exact (Safe.bind quiet_unserializeChararray.safe fun _ => string).for
  | long8p | long8n | long16p | long16n | long32p | long32n | long64p | long64n =>
    exact (Safe.bind quiet_unserializeLong.safe fun _ => set (by simp) (by simp)).for
  | double => exact (Safe.bind quiet_unserializeDouble.safe fun _ => set (by simp) (by simp)).for
  | stringEmpty | null | boolFalse | boolTrue => exact (set (by simp) (by simp)).for
  | objectSer8 | objectSer16 | objectSer32 => exact (Quiet.read fun _ => .fail).safe.for

end

theorem safeFor_unserializeZval {env : Env} {fuel : Nat} {z : Addr} :
    SafeFor z (unserializeZval env fuel z) := by
  induction fuel generalizing z with
  | zero => exact fun s settled _ => Prog.meets_exhausted settled
  | succ fuel ih =>
    refine .bind quiet_checkData fun _ => .bind quiet_unserializeType fun byte => ?_
    split
    · exact safeFor_unserializeTyped fun _ => ih
    · exact (Quiet.read fun _ => .fail).safe.for

/-! ## The whole run -/

def callerHeap (objectAddress : Handle → Nat) : Heap := (Heap.empty objectAddress).allocInitZval

def decoderRun (env : Env) (objectAddress : Handle → Nat) (fuel : Nat) :
    Run Warning Fault Step UnserializeData Addr :=
  unserialize env fuel 0 (unserializeDataInit (callerHeap objectAddress))

theorem settled_initial (objectAddress : Handle → Nat) :
    Settled (unserializeDataInit (callerHeap objectAddress)) := by
  have nothing : Sound (fun _ => False) (Heap.empty objectAddress) [] :=
    ⟨by simp [Heap.empty], by simp [Heap.value, Heap.empty], by simp [Heap.value, Heap.empty],
      by simp⟩
  exact nothing.allocInitZval

/-- **The references table never dangles exactly when every step keeps a count
of every recorded zval it releases**, in every run that decodes no object: for
every buffer, both word sizes, and after any number of steps. -/
theorem references_live_iff (env : Env) (objectAddress : Handle → Nat) (fuel : Nat)
    (noObjects : ∀ step ∈ (decoderRun env objectAddress fuel).log, step.event ≠ .object) :
    (∀ step ∈ (decoderRun env objectAddress fuel).log, step.before.Live ∧ step.after.Live) ↔
      ∀ step ∈ (decoderRun env objectAddress fuel).log, step.KeepsReferences := by
  have settled := settled_initial objectAddress
  have live : 0 < (callerHeap objectAddress).refcount 0 := by
    simp [callerHeap, Heap.allocInitZval, Heap.refcount, Heap.empty]
  have run : Maintains (unserialize env fuel 0) (unserializeDataInit (callerHeap objectAddress))
      fun _ s' => Settled s' :=
    SafeFor.bind quiet_unserializeHeader (fun _ => safeFor_unserializeZval) _ settled live
  constructor
  · intro alive step member
    exact ((run fun e there => ⟨noObjects e there, .inr (alive e there).2⟩).1 step member).1
  · intro keeps step member
    exact ((run fun e there => ⟨noObjects e there, .inl (keeps e there)⟩).1 step member).2

def nestedArray : Env := ⟨.eight, [0, 0, 0, 2, 0x14, 1, 6, 0, 0x14, 0], by decide, .nothing⟩

theorem references_live_nestedArray :
    ¬ ∃ step ∈ (decoderRun nestedArray id 8).log, ¬ (step.before.Live ∧ step.after.Live) := by
  have events : ∀ step ∈ (decoderRun nestedArray id 8).log,
      step.event = .change ∨ ∃ offset length, step.event = .take offset length := by
    intro step member
    have announced := List.mem_map_of_mem (f := Step.event) member
    have log : (decoderRun nestedArray id 8).log.map Step.event =
        [.take 0 4, .take 4 1, .take 5 1, .change, .change, .take 6 1, .take 7 1, .change,
          .take 8 1, .take 9 1, .change, .change, .change] := rfl
    rw [log] at announced
    simp only [List.mem_cons, List.not_mem_nil, or_false] at announced
    rcases announced with h | h | h | h | h | h | h | h | h | h | h | h | h <;> simp [h]
  have live := (references_live_iff nestedArray id 8 fun step member => by
    rcases events step member with event | ⟨_, _, event⟩ <;> simp [event]).mpr
    fun step member => by
      rcases events step member with event | ⟨_, _, event⟩ <;> simp [Step.KeepsReferences, event]
  rintro ⟨step, member, dead⟩
  exact dead (live step member)

def duplicateKey : Env :=
  ⟨.eight, [0, 0, 0, 2, 0x14, 2, 6, 0, 0x14, 0, 6, 0, 0], by decide, .nothing⟩

/-- The value displaced by a duplicate key dangles. -/
theorem references_dangle_duplicateKey :
    ¬ ∀ step ∈ (decoderRun duplicateKey id 8).log, step.before.Live ∧ step.after.Live := by
  intro alive
  obtain ⟨step, displaced, recorded, freed⟩ : ∃ step,
      (decoderRun duplicateKey id 8).log[18]? = some step ∧ 1 ∈ step.after.references ∧
        step.after.heap.refcount 1 = 0 := ⟨_, rfl, List.mem_of_getElem? (i := 1) rfl, rfl⟩
  have live := (alive step (List.mem_of_getElem? displaced)).2 1 recorded
  omega

end PhpExts.Igbinary
