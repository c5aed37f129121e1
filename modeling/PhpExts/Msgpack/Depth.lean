import PhpExts.Msgpack.TypeSafety

/-!
# The two container stacks of the msgpack decoder

The parser has a stack of the containers it is inside of, and the callbacks have one of the numbers
of items that are missing, which they use to see whether a value is the result, and when an object is
complete. Both are arrays of `MSGPACK_EMBED_STACK_SIZE` entries. The parser pushes its entry behind
the callback that pushes a number, and pops it behind the callback that counts the last item.

After every step of every call the stacks hold the same numbers (`inStep_of_reachable`), however the
data comes in pieces, and after a failure as well. The parser's test for the depth is the only one;
it protects the array of the callbacks too.
-/

namespace PhpExts.Msgpack.Depth

open PhpExts.Zend PhpExts.Library
open Prog (meets_pure meets_seq)

structure InStep (s : Context UnserializeData Addr) : Prop where
  counts : s.user.stack = s.stack.map Stack.count
  missing : ∀ c ∈ s.stack, 0 < c.count
  fits : s.stack.length ≤ embedStackSize

/-- The states that steps lead to: a decoder is made, or made anew; a step goes on, returns or fails; a
call goes on with other data, at an offset of the caller's choice and with the heap as other code has
left it. -/
inductive Reachable (config : Config) : Context UnserializeData Addr → Prop where
  | init (retval : Addr) (h : Heap) : Reachable config (Context.init (unserializeInit retval h))
  | step {s s' : Context UnserializeData Addr} {label : Label} (data : Bytes)
      (before : Reachable config s)
      (returns : Prog.Returns (step (unserializeCallbacks config) data) s label s') :
      Reachable config s'
  | fail {s : Context UnserializeData Addr} (data : Bytes) (before : Reachable config s)
      (fails : (step (unserializeCallbacks config) data s).result = .error ()) :
      Reachable config (step (unserializeCallbacks config) data s).state
  | call {s : Context UnserializeData Addr} (before : Reachable config s) (off : Nat)
      (retval : Addr) (h : Heap) :
      Reachable config { s with p := off, user := { s.user with retval := retval, heap := h } }

/-! ## What callbacks do to their stack -/

section

variable {α β : Type} {l l' l'' : List Nat}

def callbackEnds : Prog.Stop Unit Misuse UnserializeData where
  error _ _ := False
  fault access _ := access ≠ .count
  diverge _ := True

/-- From the counts `l` the callback comes to the counts `l'`. -/
def Does (m : Callback α) (l l' : List Nat) : Prop :=
  ∀ s : UnserializeData, s.stack = l → Prog.Meets (fun _ => True) (fun _ => True) m s
    (callbackEnds.orElse fun _ s' => s'.stack = l')

def Quiet (m : Callback α) : Prop := ∀ l, Does m l l

theorem Does.bind {m : Callback α} {f : α → Callback β} (first : Does m l l')
    (next : ∀ a, Does (f a) l' l'') : Does (m >>= f) l l'' := by
  intro s same
  apply meets_seq (first s same)
  intro a s' there
  exact next a s' there

theorem Does.read_bind {f : UnserializeData → Callback β}
    (next : ∀ s, s.stack = l → Does (f s) l l') : Does (Prog.read >>= f) l l' := by
  intro s same
  rw [Prog.meets_read_bind]
  exact next s same s same

theorem does_pure {a : α} : Does (pure a : Callback α) l l :=
  fun _ same => meets_pure same

theorem does_crash {access : Misuse} (other : access ≠ .count) :
    Does (Prog.crash access : Callback α) l l' :=
  fun _ _ => Prog.meets_crash other

theorem does_update {f : UnserializeData → UnserializeData}
    (changes : ∀ s, s.stack = l → (f s).stack = l') : Does (Prog.update f : Callback Unit) l l' :=
  fun s same => Prog.meets_update (changes s same)

theorem Quiet.bind {m : Callback α} {f : α → Callback β} (first : Quiet m)
    (next : ∀ a, Quiet (f a)) : Quiet (m >>= f) :=
  fun l => (first l).bind fun a => next a l

theorem Quiet.read_bind {f : UnserializeData → Callback β} (next : ∀ s, Quiet (f s)) :
    Quiet (Prog.read >>= f) :=
  fun l => Does.read_bind fun s _ => next s l

theorem quiet_pure {a : α} : Quiet (pure a : Callback α) := fun _ => does_pure

theorem quiet_crash {access : Misuse} (other : access ≠ .count) :
    Quiet (Prog.crash access : Callback α) := fun _ => does_crash other

theorem quiet_update {f : UnserializeData → UnserializeData} (keeps : ∀ s, (f s).stack = s.stack) :
    Quiet (Prog.update f : Callback Unit) :=
  fun _ => does_update fun s same => (keeps s).trans same

end

/-! ## The callbacks that leave the counts alone -/

section

variable {config : Config} {container key val a : Addr}

theorem quiet_onHeap {f : Heap → Heap} : Quiet (Callback.onHeap f) := quiet_update fun _ => rfl

theorem quiet_warn {warning : Warning} : Quiet (Callback.warn warning) := quiet_update fun _ => rfl

theorem quiet_setType {type : SerializeType} : Quiet (Callback.setType type) :=
  quiet_update fun _ => rfl

theorem quiet_zval : Quiet (Callback.zval a) := by
  apply Quiet.read_bind
  intro s
  split
  · exact quiet_pure
  · exact quiet_crash (by rintro ⟨⟩)

theorem quiet_onZval {f : Heap → Heap} : Quiet (Callback.onZval a f) :=
  quiet_zval.bind fun _ => quiet_onHeap

theorem quiet_allocInitZval : Quiet Callback.allocInitZval :=
  Quiet.read_bind fun _ => quiet_onHeap.bind fun _ => quiet_pure

theorem quiet_ptrDtor : Quiet (Callback.ptrDtor a) := quiet_onZval

theorem quiet_readMember {β : Type} {mem : ZValue → Option β} :
    Quiet (Callback.readMember mem a) := by
  apply quiet_zval.bind
  intro z
  split
  · exact quiet_pure
  · exact quiet_crash (by rintro ⟨⟩)

theorem quiet_varPush : Quiet (varPush a) := quiet_update fun _ => rfl

theorem quiet_stackPush {entry : Option Addr} : Quiet (stackPush entry) := quiet_update fun _ => rfl

theorem quiet_stackPop {count : Nat} : Quiet (stackPop count) := quiet_update fun _ => rfl

theorem quiet_allocStack : Quiet allocStack := by
  apply Quiet.read_bind
  intro s
  split
  · exact quiet_stackPush.bind fun _ => quiet_pure
  · exact quiet_allocInitZval.bind fun _ => quiet_stackPush.bind fun _ => quiet_pure

theorem quiet_allocValue : Quiet allocValue := by
  apply Quiet.read_bind
  intro s
  split
  · exact quiet_varPush.bind fun _ => quiet_pure
  · exact quiet_allocInitZval.bind fun _ => quiet_varPush.bind fun _ => quiet_pure

theorem quiet_unserializeValue {value : Value} : Quiet (unserializeValue value) :=
  quiet_allocStack.bind fun _ => quiet_onHeap.bind fun _ => quiet_pure

theorem quiet_initMap {count : Nat} : Quiet (initMap config a count) := by
  unfold initMap
  split
  · exact quiet_onHeap
  · exact quiet_pure

theorem quiet_addNextIndex : Quiet (addNextIndex container a) := by
  apply quiet_zval.bind
  intro z
  split
  · exact quiet_onHeap
  · exact quiet_crash (by rintro ⟨⟩)

theorem quiet_releaseDisplaced {displaced : Option Addr} : Quiet (releaseDisplaced displaced) := by
  unfold releaseDisplaced
  split
  · exact quiet_ptrDtor
  · exact quiet_pure

theorem quiet_updateItem {key : HashKey} : Quiet (updateItem container key val) :=
  Quiet.read_bind fun _ => quiet_releaseDisplaced.bind fun _ => quiet_onHeap

theorem quiet_appendItem : Quiet (appendItem container val) := by
  apply Quiet.read_bind
  intro s
  split
  · exact quiet_onHeap.bind fun _ => quiet_pure
  · exact quiet_pure

theorem quiet_storeClassName {name : Bytes} {incomplete : Bool} :
    Quiet (storeClassName container name incomplete) := by
  unfold storeClassName
  split
  · exact quiet_allocInitZval.bind fun _ => quiet_onHeap.bind fun _ => quiet_updateItem
  · exact quiet_pure

theorem quiet_unserializeClass {name : Bytes} : Quiet (unserializeClass config container name) := by
  refine Quiet.bind (quiet_update ?_) fun _ => ?_
  · intro _
    rfl
  split
  · exact quiet_warn.bind fun _ => quiet_pure
  · exact quiet_onZval.bind fun _ => quiet_storeClassName.bind fun _ => quiet_pure

theorem quiet_readMarker : Quiet (readMarker config container val) := by
  apply quiet_zval.bind
  intro z
  split
  · exact quiet_onZval
  · exact quiet_setType
  · exact quiet_setType
  · exact quiet_setType
  · exact quiet_setType
  · exact quiet_unserializeClass.bind fun _ => quiet_pure
  · exact quiet_pure

theorem quiet_callUnserialize {ce : Option ClassEntry} : Quiet (callUnserialize container val ce) := by
  unfold callUnserialize
  split
  · exact quiet_pure
  · split
    · exact quiet_readMember.bind fun _ => quiet_onHeap
    · exact quiet_warn

theorem quiet_markReference {type : SerializeType} : Quiet (markReference type a) := by
  unfold markReference
  split
  · exact quiet_onHeap
  · exact quiet_onHeap
  · exact quiet_pure

theorem quiet_initContainer : Quiet (initContainer container) := by
  apply quiet_zval.bind
  intro z
  split
  · exact quiet_pure
  · exact quiet_pure
  · exact quiet_onHeap

theorem quiet_discardUnless {stored : Bool} : Quiet (discardUnless stored val) := by
  unfold discardUnless
  split
  · exact quiet_pure
  · exact quiet_ptrDtor

theorem quiet_storeIllegalKey : Quiet (storeIllegalKey config container key val) := by
  apply quiet_warn.bind
  intro _
  split
  · exact quiet_appendItem.bind fun _ => quiet_discardUnless.bind fun _ =>
      quiet_appendItem.bind fun _ => quiet_discardUnless
  · exact quiet_zval.bind fun _ => quiet_onHeap.bind fun _ =>
      quiet_updateItem.bind fun _ => quiet_ptrDtor

theorem quiet_storeItem : Quiet (storeItem config container key val) := by
  apply quiet_zval.bind
  intro z
  split
  · exact quiet_updateItem.bind fun _ => quiet_ptrDtor
  · exact quiet_updateItem.bind fun _ => quiet_ptrDtor
  · exact quiet_storeIllegalKey

end

/-! ## The callbacks that count -/

section

variable {config : Config} {container key val obj : Addr} {count : Nat} {rest : List Nat}

def countdown (count : Nat) (rest : List Nat) : List Nat :=
  if count = 1 then rest else (count - 1) :: rest

def opened (count : Nat) (l : List Nat) : List Nat := if count = 0 then l else count :: l

theorem does_countItem : Does countItem (count :: rest) (countdown count rest) := by
  apply Does.read_bind
  intro s same
  rw [same]
  exact does_update fun _ _ => rfl

theorem does_finishItem {n : Nat} : Does (finishItem n) (count :: rest) (countdown count rest) :=
  (quiet_stackPop _).bind fun _ => does_countItem

theorem does_finishMapItem : Does (finishMapItem key val) (count :: rest) (countdown count rest) :=
  (quiet_ptrDtor _).bind fun _ => (quiet_ptrDtor _).bind fun _ => does_finishItem

theorem does_openContainer {l : List Nat} (room : l.length < embedStackSize) :
    Does (openContainer count) l (opened count l) := by
  apply Does.read_bind
  intro s same
  rw [opened, same]
  by_cases empty : count = 0
  · rw [if_pos empty, if_pos empty]
    exact does_pure
  · rw [if_neg empty, if_neg empty, if_neg (Nat.not_le.mpr room)]
    exact does_update fun s same => by rw [same]

theorem does_unserializeArray {l : List Nat} (room : l.length < embedStackSize) :
    Does (unserializeArray count) l (opened count l) :=
  (quiet_allocValue _).bind fun _ => (quiet_onHeap _).bind fun _ =>
    (does_openContainer room).bind fun _ => does_pure

theorem does_unserializeMap {l : List Nat} (room : l.length < embedStackSize) :
    Does (unserializeMap config count) l (opened count l) :=
  (quiet_allocValue _).bind fun _ => (does_openContainer room).bind fun _ =>
    (quiet_setType _).bind fun _ => (quiet_initMap _).bind fun _ => does_pure

theorem does_unserializeArrayItem :
    Does (unserializeArrayItem container obj) (count :: rest) (countdown count rest) :=
  (quiet_addNextIndex _).bind fun _ => does_finishItem.bind fun _ => does_pure

theorem does_mapItemMarker :
    Does (mapItemMarker config container key val) (count :: rest) (countdown count rest) :=
  (quiet_setType _).bind fun _ => (quiet_readMarker _).bind fun _ =>
    does_finishMapItem.bind fun _ => does_pure

theorem does_mapItemCustom :
    Does (mapItemCustom config container key val) (count :: rest) (countdown count rest) :=
  (quiet_setType _).bind fun _ => (quiet_readMember _).bind fun _ =>
    (quiet_unserializeClass _).bind fun _ => (quiet_callUnserialize _).bind fun _ =>
      does_finishMapItem.bind fun _ => does_pure

theorem does_mapItemBackReference {type : SerializeType} :
    Does (mapItemBackReference type container key val) (count :: rest) (countdown count rest) := by
  apply (quiet_setType _).bind
  intro _
  apply (quiet_readMember _).bind
  intro id
  apply Does.read_bind
  intro s _
  split
  · exact (quiet_warn _).bind fun _ => does_finishMapItem.bind fun _ => does_pure
  · exact (quiet_ptrDtor _).bind fun _ => (quiet_onZval _).bind fun _ =>
      (quiet_markReference _).bind fun _ => does_finishMapItem.bind fun _ => does_pure

theorem does_wakeupWhenComplete :
    Does (wakeupWhenComplete config container) (count :: rest) (countdown count rest) := by
  apply (quiet_stackPop _).bind
  intro _
  apply Does.read_bind
  intro s _
  apply does_countItem.bind
  intro _
  split
  · exact does_update fun _ same => same
  · exact does_pure

theorem does_mapItemStore :
    Does (mapItemStore config container key val) (count :: rest) (countdown count rest) :=
  (quiet_initContainer _).bind fun _ => (quiet_storeItem _).bind fun _ =>
    does_wakeupWhenComplete.bind fun _ => does_pure

theorem does_announce {event : UnserializeData → MapItem} {l : List Nat} :
    Does (Prog.announce event) l l :=
  fun _ same _ => ⟨fun _ _ => trivial, same⟩

theorem does_unserializeMapItem :
    Does (unserializeMapItem config container key val) (count :: rest) (countdown count rest) := by
  apply does_announce.bind
  intro _
  split
  · apply (quiet_zval _).bind
    intro z
    apply Does.read_bind
    intro s _
    split
    · exact does_mapItemMarker
    · split
      · exact does_mapItemCustom
      · exact does_mapItemBackReference
      · exact does_mapItemBackReference
      · exact does_mapItemBackReference
      · exact does_mapItemStore
      · exact does_mapItemStore
  · exact does_mapItemStore

end

/-! ## Steps of the parser -/

section

variable {config : Config} {data : Bytes} {s : Context UnserializeData Addr} {obj : Addr}
  {α β : Type}

abbrev Parser (α : Type) : Type := Machine Misuse MapItem UnserializeData Addr α

/-- The ends of a step: after a failure the stacks are in step, and no access to the counts is outside
of them. -/
def stepEnds : Prog.Stop Unit (Access Misuse) (Context UnserializeData Addr) where
  error _ s := InStep s
  fault access _ := access ≠ .callback .count
  diverge _ := True

/-- From a state the program ends in one with `post`, or as a step may end. -/
abbrev Leads (m : Parser α) (s : Context UnserializeData Addr)
    (post : α → Context UnserializeData Addr → Prop) : Prop :=
  Prog.Meets (fun _ => True) (fun _ => True) m s (stepEnds.orElse post)

abbrev Steady (m : Parser α) (s : Context UnserializeData Addr) : Prop :=
  Leads m s fun _ s' => InStep s'

theorem InStep.of_eq {s' : Context UnserializeData Addr} (inStep : InStep s)
    (user : s'.user = s.user) (stack : s'.stack = s.stack) : InStep s' where
  counts := by rw [user, stack, inStep.counts]
  missing := by rw [stack]; exact inStep.missing
  fits := by rw [stack]; exact inStep.fits

theorem leads_call {m : Callback α} {l l' : List Nat} (does : Does m l l')
    (same : s.user.stack = l) :
    Leads (call m : Parser α) s fun _ s' => ∃ u, s' = { s with user := u } ∧ u.stack = l' := by
  have inner := (does s.user same fun _ _ => trivial).2
  intro _
  refine ⟨fun _ _ => trivial, ?_⟩
  simp only [call, Prog.zoom]
  cases result : (m s.user).result with
  | ok a =>
    rw [result] at inner
    exact ⟨_, rfl, inner⟩
  | error e =>
    rw [result] at inner
    exact inner.elim
  | fault access =>
    rw [result] at inner
    intro outside
    cases outside
    exact inner rfl
  | diverge => trivial

theorem leads_readByte {i : Nat} : Leads (readByte data i : Parser UInt8) s fun _ s' => s' = s := by
  rw [readByte]
  split
  · exact meets_pure rfl
  · apply Prog.meets_crash
    rintro ⟨⟩

theorem leads_readBytes {n i : Nat} :
    Leads (readBytes data i n : Parser Bytes) s fun _ s' => s' = s := by
  induction n generalizing i with
  | zero => exact meets_pure rfl
  | succ n ih =>
    apply meets_seq leads_readByte
    rintro byte _ rfl
    apply meets_seq ih
    rintro rest _ rfl
    exact meets_pure rfl

theorem leads_load {i n : Nat} : Leads (load data i n : Parser Nat) s fun _ s' => s' = s := by
  apply meets_seq leads_readBytes
  rintro bytes _ rfl
  exact meets_pure rfl

theorem steady_headerAgain (inStep : InStep s) : Steady (headerAgain : Parser Label) s :=
  Prog.meets_update_bind.mpr (meets_pure (inStep.of_eq rfl rfl))

theorem steady_finish (inStep : InStep s) : Steady (finish obj : Parser Label) s :=
  Prog.meets_update_bind.mpr (meets_pure (inStep.of_eq rfl rfl))

theorem steady_againFixedTrail {cs : UnpackState} {trail : Nat} (inStep : InStep s) :
    Steady (againFixedTrail cs trail : Parser Label) s :=
  Prog.meets_update_bind.mpr (meets_pure (inStep.of_eq rfl rfl))

theorem steady_fail (inStep : InStep s) : Steady (Prog.fail () : Parser α) s :=
  Prog.meets_fail inStep

theorem steady_push {stack : List (Stack Addr)} (inStep : InStep s) (same : s.stack = stack) :
    Steady (push (unserializeCallbacks config) stack obj) s := by
  induction stack generalizing s obj with
  | nil => exact steady_finish inStep
  | cons c rest ih =>
    have counts := inStep.counts
    have missing := inStep.missing
    have fits := inStep.fits
    rw [same] at counts missing fits
    have missing' : ∀ c' ∈ rest, 0 < c'.count := fun c' mem =>
      missing c' (.tail _ mem)
    have fits' : rest.length ≤ embedStackSize := Nat.le_of_succ_le fits
    -- What follows a callback that has counted an item, in both kinds of containers.
    have counted : ∀ (u : UnserializeData) (container : Addr) (ct : ContainerType),
        u.stack = countdown c.count (rest.map Stack.count) →
        Steady (if c.count = 1 then do
            setStack rest
            push (unserializeCallbacks config) rest container
          else do
            setStack ({ c with obj := container, count := c.count - 1, ct := ct } :: rest)
            headerAgain) { s with user := u } := by
      intro u container ct counted
      rw [countdown] at counted
      by_cases last : c.count = 1
      · rw [if_pos last] at counted ⊢
        apply Prog.meets_update_bind.mpr
        exact ih ⟨counted, missing', fits'⟩ rfl
      · rw [if_neg last] at counted ⊢
        apply Prog.meets_update_bind.mpr
        apply steady_headerAgain
        refine ⟨counted, ?_, fits⟩
        intro c' mem
        rcases List.mem_cons.mp mem with rfl | mem
        · have := missing c (.head _)
          change 0 < c.count - 1
          omega
        · exact missing' c' mem
    cases ct : c.ct with
    | arrayItem =>
      simp only [push, ct]
      apply meets_seq (leads_call does_unserializeArrayItem counts)
      rintro container _ ⟨u, rfl, after⟩
      exact counted u container _ after
    | mapKey =>
      simp only [push, ct]
      apply Prog.meets_update_bind.mpr
      apply steady_headerAgain
      refine ⟨counts, ?_, fits⟩
      intro c' mem
      rcases List.mem_cons.mp mem with rfl | mem
      · exact missing c (.head _)
      · exact missing' c' mem
    | mapValue =>
      simp only [push, ct]
      split
      · apply Prog.meets_crash
        rintro ⟨⟩
      · apply meets_seq (leads_call does_unserializeMapItem counts)
        rintro container _ ⟨u, rfl, after⟩
        exact counted u container .mapKey after

theorem steady_pushObject (inStep : InStep s) :
    Steady (pushObject (unserializeCallbacks config) obj) s :=
  Prog.meets_read_bind.mpr (steady_push inStep rfl)

theorem steady_pushValue {value : Value} (inStep : InStep s) :
    Steady (pushValue (unserializeCallbacks config) value) s := by
  apply meets_seq (leads_call (quiet_unserializeValue s.user.stack) rfl)
  rintro obj _ ⟨u, rfl, after⟩
  exact steady_pushObject ⟨after.trans inStep.counts, inStep.missing, inStep.fits⟩

theorem steady_startContainer {func : Nat → Callback Addr} {count : Nat} {ct : ContainerType}
    (opens : ∀ {l : List Nat}, l.length < embedStackSize → Does (func count) l (opened count l))
    (inStep : InStep s) :
    Steady (startContainer (unserializeCallbacks config) func count ct) s := by
  apply Prog.meets_read_bind.mpr
  refine meets_seq (R := fun _ s' => s = s' ∧ s.stack.length < embedStackSize)
    (Prog.meets_failIf (fun _ => inStep) fun room => ⟨rfl, Nat.lt_of_not_le room⟩) ?_
  rintro _ _ ⟨rfl, room⟩
  have counted : s.user.stack.length < embedStackSize := by
    rw [inStep.counts, List.length_map]
    exact room
  apply meets_seq (leads_call (opens counted) rfl)
  rintro obj _ ⟨u, rfl, after⟩
  rw [opened] at after
  split
  · rename_i empty
    rw [if_pos empty] at after
    exact steady_pushObject ⟨after.trans inStep.counts, inStep.missing, inStep.fits⟩
  · rename_i nonempty
    rw [if_neg nonempty] at after
    apply Prog.meets_update_bind.mpr
    apply steady_headerAgain
    refine ⟨after.trans (by rw [inStep.counts]; rfl), ?_, room⟩
    exact List.forall_mem_cons.mpr ⟨Nat.pos_of_ne_zero nonempty, inStep.missing⟩

theorem steady_startArray {count : Nat} {ct : ContainerType} (inStep : InStep s) :
    Steady (startContainer (unserializeCallbacks config) (unserializeCallbacks config).array count ct)
      s :=
  steady_startContainer does_unserializeArray inStep

theorem steady_startMap {count : Nat} {ct : ContainerType} (inStep : InStep s) :
    Steady (startContainer (unserializeCallbacks config) (unserializeCallbacks config).map count ct)
      s :=
  steady_startContainer does_unserializeMap inStep

theorem steady_raw8 (inStep : InStep s) : Steady (raw8 (unserializeCallbacks config) data) s := by
  apply Prog.meets_read_bind.mpr
  apply meets_seq leads_load
  rintro trail _ rfl
  apply Prog.meets_update_bind.mpr
  apply meets_seq leads_readBytes
  rintro bytes _ rfl
  exact steady_pushValue (inStep.of_eq rfl rfl)

theorem steady_variableHeader {byte : Nat} (inStep : InStep s) :
    Steady (variableHeader (unserializeCallbacks config) data byte) s := by
  rw [variableHeader.eq_def]
  split
  -- the operations are told apart by their names, without a look into them
  all_goals first
    | with_reducible exact steady_pushValue inStep
    | with_reducible exact steady_headerAgain inStep
    | with_reducible exact steady_raw8 inStep
    | with_reducible exact steady_againFixedTrail inStep
    | exact steady_fail inStep

theorem steady_header {byte : Nat} (inStep : InStep s) :
    Steady (header (unserializeCallbacks config) data byte) s := by
  unfold header
  split
  · exact steady_pushValue inStep
  split
  · exact steady_startMap inStep
  split
  · exact steady_startArray inStep
  split
  · split
    · apply Prog.meets_update_bind.mpr
      exact steady_pushValue (inStep.of_eq rfl rfl)
    · exact steady_againFixedTrail inStep
  split
  · exact steady_variableHeader inStep
  · exact steady_pushValue inStep

theorem steady_againUnlessZero {cs : UnpackState} {trail : Nat} {value : Value}
    (inStep : InStep s) :
    Steady (againUnlessZero (unserializeCallbacks config) cs trail value) s := by
  unfold againUnlessZero
  split
  · apply Prog.meets_update_bind.mpr
    exact steady_pushValue (inStep.of_eq rfl rfl)
  · exact steady_againFixedTrail inStep

theorem steady_load_bind {n i : Nat} {f : Nat → Parser α} (next : ∀ value, Steady (f value) s) :
    Steady (load data n i >>= f) s := by
  apply meets_seq leads_load
  rintro value _ rfl
  exact next value

theorem steady_readBytes_bind {n i : Nat} {f : Bytes → Parser α}
    (next : ∀ bytes, Steady (f bytes) s) : Steady (readBytes data n i >>= f) s := by
  apply meets_seq leads_readBytes
  rintro bytes _ rfl
  exact next bytes

theorem steady_trailed {cs : UnpackState} {trail n : Nat} (inStep : InStep s) :
    Steady (trailed (unserializeCallbacks config) data cs trail n) s := by
  cases cs with
  | float | double | uint8 | uint16 | uint32 | uint64 | int8 | int16 | int32 | int64 =>
    exact steady_load_bind fun _ => steady_pushValue inStep
  | bin8 | bin16 | bin32 | raw16 | raw32 =>
    exact steady_load_bind fun _ => steady_againUnlessZero inStep
  | binValue | rawValue => exact steady_readBytes_bind fun _ => steady_pushValue inStep
  | array16 | array32 => exact steady_load_bind fun _ => steady_startArray inStep
  | map16 | map32 => exact steady_load_bind fun _ => steady_startMap inStep
  | header | raw8 => exact steady_fail inStep

/-- **A step keeps the stacks in step, whether it goes on, returns or fails.** -/
theorem steady_step (inStep : InStep s) : Steady (step (unserializeCallbacks config) data) s := by
  apply Prog.meets_read_bind.mpr
  split
  · exact meets_pure inStep
  split
  · apply meets_seq leads_readByte
    rintro byte _ rfl
    exact steady_header inStep
  · apply Prog.meets_read_bind.mpr
    split
    · exact meets_pure inStep
    · apply Prog.meets_update_bind.mpr
      exact steady_trailed (inStep.of_eq rfl rfl)

end

variable {config : Config} {s : Context UnserializeData Addr}

theorem reachable_inStep (reachable : Reachable config s) : InStep s := by
  induction reachable with
  | init retval h => exact ⟨rfl, fun _ mem => absurd mem List.not_mem_nil, Nat.zero_le _⟩
  | step data before returns ih =>
    have ends := ((steady_step ih : Steady (step (unserializeCallbacks config) data) _)
      fun _ _ => trivial).2
    rw [returns.1, returns.2] at ends
    exact ends
  | fail data before fails ih =>
    have ends := ((steady_step ih : Steady (step (unserializeCallbacks config) data) _)
      fun _ _ => trivial).2
    rw [fails] at ends
    exact ends
  | call before off retval h ih => exact ⟨ih.counts, ih.missing, ih.fits⟩

theorem reachable_execute (reachable : Reachable config s) (data : Bytes) (fuel : Nat)
    (ends : (∃ ret, (execute (unserializeCallbacks config) data fuel s).result = .ok ret) ∨
      (execute (unserializeCallbacks config) data fuel s).result = .error ()) :
    Reachable config (execute (unserializeCallbacks config) data fuel s).state := by
  induction fuel generalizing s with
  | zero => rcases ends with ⟨ret, returns⟩ | fails <;> contradiction
  | succ fuel ih =>
    have returned := fun label s' => @Reachable.step config s s' label data reachable
    have failed := Reachable.fail data reachable
    simp only [Prog.Returns] at returned
    simp only [execute, bind, Prog.andThen] at ends ⊢
    generalize step (unserializeCallbacks config) data s = run at returned failed ends ⊢
    rcases run with ⟨log, s', result⟩
    cases result with
    | ok label =>
      have next := returned label s' ⟨rfl, rfl⟩
      cases label with
      | again => exact ih next ends
      | out => exact next
      | finish => exact next
    | error e => exact failed rfl
    | fault access => rcases ends with ⟨ret, returns⟩ | fails <;> contradiction
    | diverge => rcases ends with ⟨ret, returns⟩ | fails <;> contradiction

/-- The stacks are in step in every state, and the callbacks do not count outside of theirs. -/
theorem inStep_of_reachable (config : Config) (s : Context UnserializeData Addr)
    (reachable : Reachable config s) :
    InStep s ∧ ∀ data, (step (unserializeCallbacks config) data s).result ≠
      .fault (.callback .count) := by
  have inStep := reachable_inStep reachable
  refine ⟨inStep, fun data outside => ?_⟩
  have ends := ((steady_step inStep : Steady (step (unserializeCallbacks config) data) s)
    fun _ _ => trivial).2
  rw [outside] at ends
  exact ends rfl

theorem inStep_array : InStep (step (unserializeCallbacks .default) [0x91]
        (Context.init (unserializeInit 0 resultHeap))).state ∧
      ∀ data, (step (unserializeCallbacks .default) data
        (step (unserializeCallbacks .default) [0x91]
          (Context.init (unserializeInit 0 resultHeap))).state).result ≠
        .fault (.callback .count) :=
  inStep_of_reachable .default _ (.step [0x91] (.init 0 resultHeap) ⟨rfl, rfl⟩)

example : (step (unserializeCallbacks .default) [0x91]
    (Context.init (unserializeInit 0 resultHeap))).state.user.stack = [1] := rfl

end PhpExts.Msgpack.Depth
