import PhpExts.Msgpack.Unserialize

/-!
# Type safety of the map-item callback

The callback switches over the type of a key, and over the type of the value of
a marker, before it reads them. After the markers `CUSTOM_OBJECT`, `RECURSIVE`,
`OBJECT` and `OBJECT_REFERENCE` it does not: the next pair is read as a class
name with its data, or as the number of a slot, whatever the data have put
there. `MapItemOk` says of a call that what it reads without a switch has the
type it is read as; a run of the decoder reads no member of another type exactly
when all of its calls are of that kind (`unserialize_typeSafe_iff`).
-/

namespace PhpExts.Msgpack

open PhpExts.Zend PhpExts.Library
open Prog (accounts_bind keepsAccounts_crash keepsAccounts_pure returns_bind)

def HasMember {β : Type} (h : Heap) (a : Addr) (member : ZValue → Option β) : Prop :=
  ∀ v, h.value a = some v → (member v).isSome

theorem not_hasMember {β : Type} {h : Heap} {a : Addr} {mem : ZValue → Option β} :
    ¬ HasMember h a mem ↔ ∃ v, h.value a = some v ∧ mem v = none := by
  simp [HasMember]

/-- The pair after `CUSTOM_OBJECT`: the key is a string, and the value is one if the
class the key names has an `unserialize` handler. -/
def CustomItemOk (config : Config) (call : MapItem) : Prop :=
  HasMember call.before.heap call.key ZValue.string? ∧
    ∀ name, call.before.heap.value call.key = some (.string name) →
      config.user.lookupRaises name = false → (findClass config.user name).ce.unserialize = true →
      call.before.heap.live call.container → call.before.heap.live call.val →
      call.val ≠ call.container ∧ HasMember call.before.heap call.val ZValue.string?

/-- What the call reads without a switch over the type has the type. -/
def MapItemOk (config : Config) (call : MapItem) : Prop :=
  config.phpOnly = true →
  ∀ key, call.before.heap.value call.key = some key → key.isNull = false →
    match call.before.type with
    | .customObject => CustomItemOk config call
    | .recursive | .object | .objectReference =>
      HasMember call.before.heap call.val ZValue.long?
    | .none | .reference => True

def Misuse.WrongType : Misuse → Prop
  | .wrongType _ => True
  | _ => False

/-- The callback's misuse satisfies `W`. -/
def Access.InCallback {φ : Type} (W : φ → Prop) : Access φ → Prop
  | .callback x => W x
  | _ => False

section

variable {φ τ υ ο α β : Type} {I : υ → Prop} {A : τ → Prop} {W : φ → Prop}

abbrev ParserAccounts (I : υ → Prop) (A : τ → Prop) (W : φ → Prop) (m : Machine φ τ υ ο α) : Prop :=
  Prog.KeepsAccounts (fun s => I s.user) A (Access.InCallback W) m

structure Callbacks.Account (cb : Callbacks φ τ υ ο) (I : υ → Prop) (A : τ → Prop)
    (W : φ → Prop) : Prop where
  value : ∀ v, Prog.KeepsAccounts I A W (cb.value v)
  array : ∀ n, Prog.KeepsAccounts I A W (cb.array n)
  map : ∀ n, Prog.KeepsAccounts I A W (cb.map n)
  arrayItem : ∀ c v, Prog.KeepsAccounts I A W (cb.arrayItem c v)
  mapItem : ∀ c k v, Prog.KeepsAccounts I A W (cb.mapItem c k v)

theorem parserAccounts_update {f : Context υ ο → Context υ ο} {next : Unit → Machine φ τ υ ο α}
    (same : ∀ s, (f s).user = s.user) (rest : ParserAccounts I A W (next ())) :
    ParserAccounts I A W (Prog.update f >>= next) :=
  (Prog.keepsAccounts_update fun s holds => by rwa [same]).bind fun _ => rest

theorem parserAccounts_call {m : Prog Unit φ τ υ α} (inner : Prog.KeepsAccounts I A W m) :
    ParserAccounts I A W (call m : Machine φ τ υ ο α) where
  keeps := Prog.keeps_zoom inner.keeps (fun _ holds => holds) fun _ _ _ holds => holds
  accounts _ holds := Prog.accounts_zoom (fun _ => Iff.rfl) (inner.accounts _ holds)

section

variable {data : Bytes}

theorem parserAccounts_readByte {i : Nat} :
    ParserAccounts I A W (readByte data i : Machine φ τ υ ο UInt8) := by
  rw [readByte]
  split
  · exact keepsAccounts_pure
  · exact keepsAccounts_crash fun wrong => wrong

theorem parserAccounts_readBytes {n i : Nat} :
    ParserAccounts I A W (readBytes data i n : Machine φ τ υ ο Bytes) := by
  induction n generalizing i with
  | zero => exact keepsAccounts_pure
  | succ n ih =>
    exact parserAccounts_readByte.bind fun byte => ih.bind fun rest => keepsAccounts_pure

theorem parserAccounts_load {i n : Nat} :
    ParserAccounts I A W (load data i n : Machine φ τ υ ο Nat) :=
  parserAccounts_readBytes.bind fun _ => keepsAccounts_pure

end

section

variable {cb : Callbacks φ τ υ ο} {data : Bytes}

theorem parserAccounts_headerAgain : ParserAccounts I A W (headerAgain : Machine φ τ υ ο Label) :=
  parserAccounts_update (fun _ => rfl) keepsAccounts_pure

theorem parserAccounts_againFixedTrail {cs : UnpackState} {trail : Nat} :
    ParserAccounts I A W (againFixedTrail cs trail : Machine φ τ υ ο Label) :=
  parserAccounts_update (fun _ => rfl) keepsAccounts_pure

theorem parserAccounts_push (account : cb.Account I A W) (stack : List (Stack ο)) (obj : ο) :
    ParserAccounts I A W (push cb stack obj) := by
  induction stack generalizing obj with
  | nil => exact parserAccounts_update (fun _ => rfl) keepsAccounts_pure
  | cons c rest ih =>
    have complete (more : Stack ο) (container : ο) :
        ParserAccounts I A W (if c.count = 1 then do
          setStack rest
          push cb rest container
        else do
          setStack (more :: rest)
          headerAgain : Machine φ τ υ ο Label) := by
      split
      · exact parserAccounts_update (fun _ => rfl) (ih container)
      · exact parserAccounts_update (fun _ => rfl) parserAccounts_headerAgain
    rw [push]
    split
    · exact (parserAccounts_call (account.arrayItem _ _)).bind fun container => complete _ container
    · exact parserAccounts_update (fun _ => rfl) parserAccounts_headerAgain
    · split
      · exact keepsAccounts_crash fun wrong => wrong
      · exact (parserAccounts_call (account.mapItem _ _ _)).bind fun container =>
          complete _ container

theorem parserAccounts_pushObject (account : cb.Account I A W) {obj : ο} :
    ParserAccounts I A W (pushObject cb obj) :=
  Prog.keepsAccounts_read.bind fun s => parserAccounts_push account s.stack obj

theorem parserAccounts_pushValue (account : cb.Account I A W) {value : Value} :
    ParserAccounts I A W (pushValue cb value) :=
  (parserAccounts_call (account.value value)).bind fun _ => parserAccounts_pushObject account

theorem parserAccounts_startContainer (account : cb.Account I A W)
    {func : Nat → Prog Unit φ τ υ ο} {count : Nat} {ct : ContainerType}
    (inner : Prog.KeepsAccounts I A W (func count)) :
    ParserAccounts I A W (startContainer cb func count ct) := by
  refine Prog.keepsAccounts_read.bind fun s => ?_
  refine Prog.KeepsAccounts.bind ⟨Prog.keeps_failIf, fun _ _ => Prog.accounts_failIf⟩ fun _ => ?_
  refine (parserAccounts_call inner).bind fun obj => ?_
  split
  · exact parserAccounts_pushObject account
  · exact parserAccounts_update (fun _ => rfl) parserAccounts_headerAgain

theorem parserAccounts_raw8 (account : cb.Account I A W) : ParserAccounts I A W (raw8 cb data) :=
  Prog.keepsAccounts_read.bind fun _ => parserAccounts_load.bind fun _ =>
    parserAccounts_update (fun _ => rfl) (parserAccounts_readBytes.bind fun _ =>
      parserAccounts_pushValue account)

theorem parserAccounts_variableHeader (account : cb.Account I A W) {byte : Nat} :
    ParserAccounts I A W (variableHeader cb data byte) := by
  rw [variableHeader.eq_def]
  split
  -- the operations are told apart by their names, without a look into them
  all_goals first
    | with_reducible exact parserAccounts_pushValue account
    | with_reducible exact parserAccounts_headerAgain
    | with_reducible exact parserAccounts_raw8 account
    | with_reducible exact parserAccounts_againFixedTrail
    | exact ⟨Prog.keeps_fail, fun _ _ => Prog.accounts_fail⟩

theorem parserAccounts_header (account : cb.Account I A W) {byte : Nat} :
    ParserAccounts I A W (header cb data byte) := by
  unfold header
  split
  · exact parserAccounts_pushValue account
  split
  · exact parserAccounts_startContainer account (account.map _)
  split
  · exact parserAccounts_startContainer account (account.array _)
  split
  · split
    · exact parserAccounts_update (fun _ => rfl) (parserAccounts_pushValue account)
    · exact parserAccounts_againFixedTrail
  split
  · exact parserAccounts_variableHeader account
  · exact parserAccounts_pushValue account

theorem parserAccounts_againUnlessZero (account : cb.Account I A W) {cs : UnpackState}
    {trail : Nat} {value : Value} : ParserAccounts I A W (againUnlessZero cb cs trail value) := by
  unfold againUnlessZero
  split
  · exact parserAccounts_update (fun _ => rfl) (parserAccounts_pushValue account)
  · exact parserAccounts_againFixedTrail

theorem parserAccounts_trailed (account : cb.Account I A W) {cs : UnpackState} {trail n : Nat} :
    ParserAccounts I A W (trailed cb data cs trail n) := by
  unfold trailed
  split
  all_goals first
    | with_reducible exact parserAccounts_load.bind fun _ => parserAccounts_pushValue account
    | with_reducible exact parserAccounts_load.bind fun _ =>
      parserAccounts_againUnlessZero account
    | with_reducible exact parserAccounts_readBytes.bind fun _ => parserAccounts_pushValue account
    | with_reducible exact parserAccounts_load.bind fun _ =>
      parserAccounts_startContainer account (account.array _)
    | with_reducible exact parserAccounts_load.bind fun _ =>
      parserAccounts_startContainer account (account.map _)
    | exact ⟨Prog.keeps_fail, fun _ _ => Prog.accounts_fail⟩

theorem parserAccounts_step (account : cb.Account I A W) : ParserAccounts I A W (step cb data) := by
  refine Prog.keepsAccounts_read.bind fun s => ?_
  split
  · exact keepsAccounts_pure
  split
  · exact parserAccounts_readByte.bind fun _ => parserAccounts_header account
  · refine Prog.keepsAccounts_read.bind fun s => ?_
    split
    · exact keepsAccounts_pure
    · exact parserAccounts_update (fun _ => rfl) (parserAccounts_trailed account)

theorem parserAccounts_execute (account : cb.Account I A W) {fuel : Nat} :
    ParserAccounts I A W (execute cb data fuel) := by
  induction fuel with
  | zero => exact ⟨Prog.keeps_exhausted, fun _ _ => Prog.accounts_exhausted⟩
  | succ fuel ih =>
    refine (parserAccounts_step account).bind fun label => ?_
    cases label with
    | again => exact ih
    | out => exact keepsAccounts_pure
    | finish => exact keepsAccounts_pure

end

end

/-! ## The callbacks -/

section

variable {config : Config} {α : Type}

def UnserializeData.Fresh (s : UnserializeData) : Prop := s.heap.Fresh

abbrev TypeSafe (config : Config) (m : Callback α) : Prop :=
  Prog.KeepsAccounts UnserializeData.Fresh (MapItemOk config) Misuse.WrongType m

theorem typeSafe_update {f : UnserializeData → UnserializeData}
    (within : ∀ s : UnserializeData, s.heap.Within (f s).heap) :
    TypeSafe config (Prog.update f : Callback Unit) :=
  Prog.keepsAccounts_update fun s fresh => (within s).fresh fresh

theorem typeSafe_onHeap {f : Heap → Heap} (within : ∀ h : Heap, h.Within (f h)) :
    TypeSafe config (Callback.onHeap f) :=
  typeSafe_update fun s => within s.heap

theorem typeSafe_warn {warning : Warning} : TypeSafe config (Callback.warn warning) :=
  typeSafe_update fun _ => .refl _

theorem typeSafe_setType {type : SerializeType} : TypeSafe config (Callback.setType type) :=
  typeSafe_update fun _ => .refl _

theorem typeSafe_allocInitZval : TypeSafe config Callback.allocInitZval :=
  Prog.keepsAccounts_read.bind fun _ =>
    Prog.KeepsAccounts.bind (Prog.keepsAccounts_update fun (s : UnserializeData) fresh =>
      (Heap.fresh_allocInitZval fresh : s.heap.allocInitZval.Fresh)) fun _ =>
        keepsAccounts_pure

theorem typeSafe_zval {a : Addr} : TypeSafe config (Callback.zval a) := by
  refine Prog.keepsAccounts_read.bind fun s => ?_
  split
  · exact keepsAccounts_pure
  · exact keepsAccounts_crash fun wrong => wrong

theorem typeSafe_onZval {a : Addr} {f : Heap → Heap} (within : ∀ h : Heap, h.Within (f h)) :
    TypeSafe config (Callback.onZval a f) :=
  typeSafe_zval.bind fun _ => typeSafe_onHeap within

theorem typeSafe_ptrDtor {a : Addr} : TypeSafe config (Callback.ptrDtor a) :=
  typeSafe_onZval fun _ => Heap.within_ptrDtor

theorem typeSafe_varPush {a : Addr} : TypeSafe config (varPush a) :=
  typeSafe_update fun _ => .refl _

theorem typeSafe_stackPush {entry : Option Addr} : TypeSafe config (stackPush entry) :=
  typeSafe_update fun _ => .refl _

variable {count : Nat}

theorem typeSafe_stackPop : TypeSafe config (stackPop count) :=
  typeSafe_update fun _ => .refl _

theorem typeSafe_allocStack : TypeSafe config allocStack := by
  refine Prog.keepsAccounts_read.bind fun s => ?_
  split
  · exact typeSafe_stackPush.bind fun _ => keepsAccounts_pure
  · exact typeSafe_allocInitZval.bind fun _ =>
      typeSafe_stackPush.bind fun _ => keepsAccounts_pure

theorem typeSafe_allocValue : TypeSafe config allocValue := by
  refine Prog.keepsAccounts_read.bind fun s => ?_
  split
  · exact typeSafe_varPush.bind fun _ => keepsAccounts_pure
  · exact typeSafe_allocInitZval.bind fun _ =>
      typeSafe_varPush.bind fun _ => keepsAccounts_pure

theorem typeSafe_openContainer : TypeSafe config (openContainer count) := by
  refine Prog.keepsAccounts_read.bind fun s => ?_
  split
  · exact keepsAccounts_pure
  split
  · exact keepsAccounts_crash fun wrong => wrong
  · exact typeSafe_update fun _ => .refl _

theorem typeSafe_unserializeValue {value : Value} : TypeSafe config (unserializeValue value) :=
  typeSafe_allocStack.bind fun _ => (typeSafe_onHeap fun _ => Heap.within_setValue).bind fun _ =>
    keepsAccounts_pure

theorem typeSafe_unserializeArray : TypeSafe config (unserializeArray count) :=
  typeSafe_allocValue.bind fun _ => (typeSafe_onHeap fun _ => Heap.within_setValue).bind fun _ =>
    typeSafe_openContainer.bind fun _ => keepsAccounts_pure

theorem typeSafe_initMap {obj : Addr} : TypeSafe config (initMap config obj count) := by
  unfold initMap
  split
  · refine typeSafe_onHeap fun h => ?_
    split
    · exact Heap.within_objectInitEx
    · exact Heap.within_setValue
  · exact keepsAccounts_pure

theorem typeSafe_unserializeMap : TypeSafe config (unserializeMap config count) :=
  typeSafe_allocValue.bind fun _ => typeSafe_openContainer.bind fun _ =>
    typeSafe_setType.bind fun _ => typeSafe_initMap.bind fun _ => keepsAccounts_pure

theorem typeSafe_countItem : TypeSafe config countItem := by
  refine Prog.keepsAccounts_read.bind fun s => ?_
  split
  · exact keepsAccounts_crash fun wrong => wrong
  · exact typeSafe_update fun _ => .refl _

theorem typeSafe_finishItem : TypeSafe config (finishItem count) :=
  typeSafe_stackPop.bind fun _ => typeSafe_countItem

theorem typeSafe_finishMapItem {key val : Addr} : TypeSafe config (finishMapItem key val) :=
  typeSafe_ptrDtor.bind fun _ => typeSafe_ptrDtor.bind fun _ => typeSafe_finishItem

variable {container : Addr}

theorem typeSafe_addNextIndex {obj : Addr} : TypeSafe config (addNextIndex container obj) := by
  refine typeSafe_zval.bind fun z => ?_
  split
  · refine typeSafe_onHeap fun h => ?_
    split
    · exact Heap.within_setValue
    · exact .refl h
  · exact keepsAccounts_crash fun wrong => wrong

theorem typeSafe_unserializeArrayItem {obj : Addr} :
    TypeSafe config (unserializeArrayItem container obj) :=
  typeSafe_addNextIndex.bind fun _ => typeSafe_finishItem.bind fun _ => keepsAccounts_pure

theorem typeSafe_releaseDisplaced {displaced : Option Addr} :
    TypeSafe config (releaseDisplaced displaced) := by
  cases displaced with
  | some old => exact typeSafe_ptrDtor
  | none => exact keepsAccounts_pure

theorem typeSafe_updateItem {val : Addr} {key : HashKey} :
    TypeSafe config (updateItem container key val) :=
  Prog.keepsAccounts_read.bind fun _ => typeSafe_releaseDisplaced.bind fun _ =>
    typeSafe_onHeap fun _ => within_setHashOf

theorem typeSafe_appendItem {val : Addr} : TypeSafe config (appendItem container val) := by
  refine Prog.keepsAccounts_read.bind fun s => ?_
  split
  · exact (typeSafe_onHeap fun _ => within_setHashOf).bind fun _ => keepsAccounts_pure
  · exact keepsAccounts_pure

theorem typeSafe_storeClassName {name : Bytes} {incomplete : Bool} :
    TypeSafe config (storeClassName container name incomplete) := by
  unfold storeClassName
  split
  · exact typeSafe_allocInitZval.bind fun _ =>
      (typeSafe_onHeap fun _ => Heap.within_setValue).bind fun _ => typeSafe_updateItem
  · exact keepsAccounts_pure

theorem typeSafe_unserializeClass {name : Bytes} :
    TypeSafe config (unserializeClass config container name) := by
  refine Prog.KeepsAccounts.bind (typeSafe_update fun _ => .refl _) fun _ => ?_
  split
  · exact typeSafe_warn.bind fun _ => keepsAccounts_pure
  · exact (typeSafe_onZval fun _ => Heap.within_objectInitEx).bind fun _ =>
      typeSafe_storeClassName.bind fun _ => keepsAccounts_pure

theorem typeSafe_readMarker {val : Addr} : TypeSafe config (readMarker config container val) := by
  refine typeSafe_zval.bind fun value => ?_
  split
  all_goals first
    | exact typeSafe_onZval fun _ => Heap.within_setIsRef
    | exact typeSafe_setType
    | exact typeSafe_unserializeClass.bind fun _ => keepsAccounts_pure
    | exact keepsAccounts_pure

theorem typeSafe_mapItemMarker {key val : Addr} :
    TypeSafe config (mapItemMarker config container key val) :=
  typeSafe_setType.bind fun _ => typeSafe_readMarker.bind fun _ =>
    typeSafe_finishMapItem.bind fun _ => keepsAccounts_pure

theorem typeSafe_initContainer : TypeSafe config (initContainer container) := by
  refine typeSafe_zval.bind fun z => ?_
  split
  · exact keepsAccounts_pure
  · exact keepsAccounts_pure
  · exact typeSafe_onHeap fun _ => Heap.within_setValue

theorem typeSafe_discardUnless {stored : Bool} {val : Addr} :
    TypeSafe config (discardUnless stored val) := by
  cases stored with
  | true => exact keepsAccounts_pure
  | false => exact typeSafe_ptrDtor

theorem typeSafe_storeIllegalKey {key val : Addr} :
    TypeSafe config (storeIllegalKey config container key val) := by
  refine typeSafe_warn.bind fun _ => ?_
  split
  · exact typeSafe_appendItem.bind fun _ => typeSafe_discardUnless.bind fun _ =>
      typeSafe_appendItem.bind fun _ => typeSafe_discardUnless
  · exact typeSafe_zval.bind fun _ =>
      (typeSafe_onHeap fun _ => Heap.within_dtorToNull.trans Heap.within_setValue).bind fun _ =>
        typeSafe_updateItem.bind fun _ => typeSafe_ptrDtor

theorem typeSafe_wakeupWhenComplete : TypeSafe config (wakeupWhenComplete config container) := by
  refine typeSafe_stackPop.bind fun _ => Prog.keepsAccounts_read.bind fun s =>
    typeSafe_countItem.bind fun _ => ?_
  split
  · exact typeSafe_update fun _ => .refl _
  · exact keepsAccounts_pure

theorem typeSafe_storeItem {key val : Addr} :
    TypeSafe config (storeItem config container key val) := by
  refine typeSafe_zval.bind fun z => ?_
  split
  · exact typeSafe_updateItem.bind fun _ => typeSafe_ptrDtor
  · exact typeSafe_updateItem.bind fun _ => typeSafe_ptrDtor
  · exact typeSafe_storeIllegalKey

theorem typeSafe_mapItemStore {key val : Addr} :
    TypeSafe config (mapItemStore config container key val) :=
  typeSafe_initContainer.bind fun _ => typeSafe_storeItem.bind fun _ =>
    typeSafe_wakeupWhenComplete.bind fun _ => keepsAccounts_pure

/-! ### Reads without a switch -/

section

variable {s s' : UnserializeData} {a : Addr}

@[simp] theorem returns_zval {z : Zval} :
    Prog.Returns (Callback.zval a) s z s' ↔ s.heap.zvals a = some z ∧ s' = s := by
  simp only [Callback.zval, returns_bind, Prog.returns_read]
  constructor
  · rintro ⟨_, _, ⟨rfl, rfl⟩, returns⟩
    split at returns
    · rename_i cell
      obtain ⟨rfl, rfl⟩ := Prog.returns_pure.mp returns
      exact ⟨cell, rfl⟩
    · exact absurd returns Prog.returns_crash
  · rintro ⟨cell, rfl⟩
    refine ⟨s', s', ⟨rfl, rfl⟩, ?_⟩
    rw [cell]
    exact Prog.returns_pure.mpr ⟨rfl, rfl⟩

theorem accounts_readMember {β : Type} {mem : ZValue → Option β} (fresh : s.Fresh)
    (holds : HasMember s.heap a mem) :
    Prog.Accounts (MapItemOk config) Misuse.WrongType (Callback.readMember mem a) s := by
  refine accounts_bind (typeSafe_zval.accounts s fresh) fun z s₁ read => ?_
  obtain ⟨cell, rfl⟩ := returns_zval.mp read
  have typed := holds z.value (by simp [Heap.value, cell])
  obtain ⟨b, found⟩ := Option.isSome_iff_exists.mp typed
  rw [found]
  exact Prog.accounts_pure

theorem returns_readMember {β : Type} {mem : ZValue → Option β} {b : β} :
    Prog.Returns (Callback.readMember mem a) s b s' ↔
      (∃ v, s.heap.value a = some v ∧ mem v = some b) ∧ s' = s := by
  simp only [Callback.readMember, returns_bind, returns_zval]
  constructor
  · rintro ⟨z, _, ⟨cell, rfl⟩, returns⟩
    split at returns
    · rename_i found
      obtain ⟨rfl, rfl⟩ := Prog.returns_pure.mp returns
      exact ⟨⟨z.value, by simp [Heap.value, cell], found⟩, rfl⟩
    · exact absurd returns Prog.returns_crash
  · rintro ⟨⟨v, live, found⟩, rfl⟩
    obtain ⟨z, cell, rfl⟩ := Option.map_eq_some_iff.mp live
    refine ⟨z, s', ⟨cell, rfl⟩, ?_⟩
    rw [found]
    exact Prog.returns_pure.mpr ⟨rfl, rfl⟩

theorem keeps_readMember {β : Type} {mem : ZValue → Option β} :
    Prog.Keeps UnserializeData.Fresh (Callback.readMember mem a) := by
  intro s b s' fresh returns
  rw [(returns_readMember.mp returns).2]
  exact fresh

theorem value_of_string {h : Heap} {v : ZValue} {bytes : Bytes} (live : h.value a = some v)
    (found : v.string? = some bytes) : h.value a = some (.string bytes) := by
  cases v with
  | string => rw [live, ← Option.some.inj found]
  | _ => cases found

theorem faults_readMember {β : Type} {mem : ZValue → Option β} {v : ZValue}
    (live : s.heap.value a = some v) (other : mem v = none) :
    Prog.Faults (Callback.readMember mem a) s (.wrongType a) := by
  obtain ⟨z, cell, rfl⟩ := Option.map_eq_some_iff.mp live
  refine Prog.faults_bind.mpr (.inr ⟨z, s, returns_zval.mpr ⟨cell, rfl⟩, ?_⟩)
  rw [other]
  exact Prog.faults_crash.mpr rfl

@[simp] theorem returns_onHeap {f : Heap → Heap} {u : Unit} :
    Prog.Returns (Callback.onHeap f) s u s' ↔ s' = { s with heap := f s.heap } :=
  Prog.returns_update

theorem returns_onZval {f : Heap → Heap} {u : Unit} : Prog.Returns (Callback.onZval a f) s u s' ↔
      s.heap.live a ∧ s' = { s with heap := f s.heap } := by
  simp only [Callback.onZval, returns_bind, returns_zval, returns_onHeap, Heap.live,
    Option.isSome_iff_exists]
  constructor
  · rintro ⟨z, _, ⟨cell, rfl⟩, rfl⟩
    exact ⟨⟨z, cell⟩, rfl⟩
  · rintro ⟨⟨z, cell⟩, rfl⟩
    exact ⟨z, s, ⟨cell, rfl⟩, rfl⟩

@[simp] theorem returns_allocInitZval {b : Addr} : Prog.Returns Callback.allocInitZval s b s' ↔
      b = s.heap.nextAddr ∧ s' = { s with heap := s.heap.allocInitZval } := by
  simp only [Callback.allocInitZval, returns_bind, Prog.returns_read, returns_onHeap,
    Prog.returns_pure]
  constructor
  · rintro ⟨_, _, ⟨rfl, rfl⟩, _, _, rfl, rfl, rfl⟩
    exact ⟨rfl, rfl⟩
  · rintro ⟨rfl, rfl⟩
    exact ⟨s, s, ⟨rfl, rfl⟩, (), _, rfl, rfl, rfl⟩

theorem returns_updateItem {container val : Addr} {key : HashKey}
    (absent : (hashOf s.heap container).find key = none) :
    Prog.Returns (updateItem container key val) s ()
      { s with
        heap := setHashOf s.heap container ((hashOf s.heap container).update .eight key val) } := by
  simp only [updateItem, returns_bind, Prog.returns_read, returns_onHeap]
  refine ⟨s, s, ⟨rfl, rfl⟩, (), s, ?_, rfl⟩
  rw [absent]
  exact Prog.returns_pure.mpr ⟨rfl, rfl⟩

theorem returns_storeClassName {h : Heap} {container : Addr} {ce : ClassEntry} (name : Bytes)
    (incomplete : Bool) (fresh : h.Fresh) (live : h.live container)
    (made : s.heap = h.objectInitEx container ce) :
    ∃ s', Prog.Returns (storeClassName container name incomplete) s () s' ∧
      (∃ o, s'.heap.value container = some (.object o)) ∧
      ∀ b, b ≠ container → s'.heap.value b = h.value b ∨
        ¬ h.live b ∧ s'.heap.value b = some (.string name) := by
  obtain ⟨v, value⟩ := Heap.live_iff_value.mp live
  cases incomplete with
  | false =>
    refine ⟨s, Prog.returns_pure.mpr ⟨rfl, rfl⟩, ⟨h.nextHandle, ?_⟩, fun b other => .inl ?_⟩
    · rw [made, Heap.value_objectInitEx, if_pos rfl, value]
      rfl
    · rw [made, Heap.value_objectInitEx, if_neg other]
  | true =>
    have stored (b : Addr) :
        ((s.heap.allocInitZval).setValue s.heap.nextAddr (.string name)).value b =
          if b = h.nextAddr then some (.string name) else s.heap.value b := by
      have next : s.heap.nextAddr = h.nextAddr := by rw [made, Heap.nextAddr_objectInitEx]
      rw [Heap.value_setValue, next, Heap.value_allocInitZval, next, if_pos rfl]
      split
      · rfl
      · rename_i other
        rw [Heap.value_allocInitZval, next, if_neg other]
    have object : ((s.heap.allocInitZval).setValue s.heap.nextAddr (.string name)).value
        container = some (.object h.nextHandle) := by
      rw [stored, if_neg (Nat.ne_of_lt (fresh container live)), made, Heap.value_objectInitEx,
        if_pos rfl, value]
      rfl
    have table : hashOf ((s.heap.allocInitZval).setValue s.heap.nextAddr (.string name))
        container = .empty := by
      rw [hashOf, object]
      simp only [Heap.objects_setValue, Heap.objects_allocInitZval]
      rw [made, Heap.objects_objectInitEx, if_pos rfl]
      rfl
    obtain ⟨s', returns, heap⟩ : ∃ s', Prog.Returns (storeClassName container name true) s () s' ∧
        ∃ o cell, s'.heap = ((s.heap.allocInitZval).setValue s.heap.nextAddr
          (.string name)).setObject o cell := by
      refine ⟨_, Prog.returns_bind.mpr ⟨_, _, returns_allocInitZval.mpr ⟨rfl, rfl⟩,
        Prog.returns_bind.mpr ⟨(), _, returns_onHeap.mpr rfl,
          returns_updateItem (by simp only [table]; rfl)⟩⟩, ?_⟩
      simp only [setHashOf, object]
      exact ⟨_, _, rfl⟩
    obtain ⟨o, cell, heap⟩ := heap
    refine ⟨s', returns, ⟨h.nextHandle, ?_⟩, fun b other => ?_⟩
    · rw [heap, Heap.value_setObject, object]
    · rw [heap, Heap.value_setObject, stored]
      split
      · rename_i next
        exact .inr ⟨fun inside => absurd (fresh b inside) (by rw [next]; exact lt_irrefl _), rfl⟩
      · left
        rw [made, Heap.value_objectInitEx, if_neg other]

theorem returns_unserializeClass {container : Addr} {name : Bytes} (fresh : s.Fresh)
    (live : s.heap.live container) (quiet : config.user.lookupRaises name = false) :
    ∃ s', Prog.Returns (unserializeClass config container name) s
        (some (findClass config.user name).ce) s' ∧
      (∃ o, s'.heap.value container = some (.object o)) ∧
      ∀ b, b ≠ container → s'.heap.value b = s.heap.value b ∨
        ¬ s.heap.live b ∧ s'.heap.value b = some (.string name) := by
  obtain ⟨s', stored, object, others⟩ := returns_storeClassName (s := { s with
      warnings := s.warnings ++ (findClass config.user name).warnings
      heap := s.heap.objectInitEx container (findClass config.user name).ce })
    name (findClass config.user name).incomplete fresh live rfl
  refine ⟨s', ?_, object, others⟩
  refine Prog.returns_bind.mpr ⟨(), _, Prog.returns_update.mpr rfl, ?_⟩
  rw [quiet]
  refine Prog.returns_bind.mpr ⟨(), _, returns_onZval.mpr ⟨live, rfl⟩, ?_⟩
  exact Prog.returns_bind.mpr ⟨(), s', stored, Prog.returns_pure.mpr ⟨rfl, rfl⟩⟩

theorem live_of_returns_unserializeClass {container : Addr} {name : Bytes} {ce : ClassEntry}
    (returns : Prog.Returns (unserializeClass config container name) s (some ce) s') :
    config.user.lookupRaises name = false ∧ s.heap.live container := by
  obtain ⟨_, s₁, updated, rest⟩ := Prog.returns_bind.mp returns
  obtain rfl := Prog.returns_update.mp updated
  split at rest
  · obtain ⟨_, _, _, none⟩ := Prog.returns_bind.mp rest
    cases (Prog.returns_pure.mp none).1
  · rename_i quiet
    obtain ⟨_, _, made, _⟩ := Prog.returns_bind.mp rest
    exact ⟨by simpa using quiet, (returns_onZval.mp made).1⟩

end

/-! ### The branches that read without a switch -/

section

variable {s : UnserializeData} {container key val : Addr}

theorem keeps_callUnserialize (config : Config) {ce : Option ClassEntry} :
    Prog.Keeps UnserializeData.Fresh (callUnserialize container val ce) := by
  cases ce with
  | none => exact Prog.keeps_pure
  | some ce =>
    rw [callUnserialize]
    split
    · refine keeps_readMember.bind fun data => ?_
      refine Prog.KeepsAccounts.keeps (A := MapItemOk config) (W := Misuse.WrongType)
        (typeSafe_onHeap fun h => ?_)
      split
      · exact Heap.within_setObject
      · exact .refl h
    · exact (typeSafe_warn : TypeSafe config _).keeps

theorem accounts_callUnserialize {ce : Option ClassEntry} (fresh : s.Fresh)
    (typed : ∀ class', ce = some class' → class'.unserialize = true →
      HasMember s.heap val ZValue.string?) :
    Prog.Accounts (MapItemOk config) Misuse.WrongType (callUnserialize container val ce) s := by
  cases ce with
  | none => exact Prog.accounts_pure
  | some ce =>
    rw [callUnserialize]
    split
    · rename_i handled
      exact accounts_bind (accounts_readMember fresh (typed ce rfl handled)) fun _ _ _ =>
        Prog.accounts_update
    · exact Prog.accounts_update

theorem keeps_mapItemCustom :
    Prog.Keeps UnserializeData.Fresh (mapItemCustom config container key val) :=
  (typeSafe_setType : TypeSafe config _).keeps.bind fun _ => keeps_readMember.bind fun _ =>
    (typeSafe_unserializeClass : TypeSafe config _).keeps.bind fun _ =>
      (keeps_callUnserialize config).bind fun _ =>
        (typeSafe_finishMapItem : TypeSafe config _).keeps.bind fun _ => Prog.keeps_pure

theorem accounts_mapItemCustom (fresh : s.Fresh)
    (ok : CustomItemOk config ⟨s, container, key, val⟩) :
    Prog.Accounts (MapItemOk config) Misuse.WrongType (mapItemCustom config container key val)
      s := by
  refine accounts_bind Prog.accounts_update fun _ s₁ set => ?_
  obtain rfl := Prog.returns_update.mp set
  refine accounts_bind (accounts_readMember fresh ok.1) fun name s₂ read => ?_
  obtain ⟨⟨v, live, found⟩, rfl⟩ := returns_readMember.mp read
  have named := value_of_string live found
  have fresh₂ : UnserializeData.Fresh { s with type := .none } := fresh
  refine accounts_bind (typeSafe_unserializeClass.accounts _ fresh₂) fun ce s₃ searched => ?_
  have fresh₃ : s₃.Fresh :=
    (typeSafe_unserializeClass : TypeSafe config _).keeps _ _ _ fresh₂ searched
  refine accounts_bind (accounts_callUnserialize fresh₃ ?_) fun _ s₄ called => ?_
  · rintro class' rfl handled v live'
    obtain ⟨quiet, liveContainer⟩ := live_of_returns_unserializeClass searched
    obtain ⟨s', searched', object, others⟩ :=
      returns_unserializeClass fresh₂ liveContainer quiet
    obtain ⟨same, rfl⟩ := searched.unique searched'
    rw [Option.some.inj same] at handled
    have checked := ok.2 name named quiet handled liveContainer
    have other : val ≠ container := fun same =>
      (checked (by simpa [same] using liveContainer)).1 same
    rcases others val other with before | ⟨-, stored⟩
    · rw [before] at live'
      exact (checked (Heap.live_iff_value.mpr ⟨v, live'⟩)).2 v live'
    · rw [stored] at live'
      rw [← Option.some.inj live']
      rfl
  · have fresh₄ : s₄.Fresh := keeps_callUnserialize config _ _ _ fresh₃ called
    exact accounts_bind (typeSafe_finishMapItem.accounts _ fresh₄) fun _ _ _ =>
      Prog.accounts_pure

theorem faults_mapItemCustom (fresh : s.Fresh)
    (bad : ¬ CustomItemOk config ⟨s, container, key, val⟩) :
    ∃ x, Prog.Faults (mapItemCustom config container key val) s x ∧ Misuse.WrongType x := by
  by_cases keyed : HasMember s.heap key ZValue.string?
  · have rest : ¬ ∀ name, _ := fun holds => bad ⟨keyed, holds⟩
    push Not at rest
    obtain ⟨name, named, quiet, handled, liveContainer, liveVal, wrong⟩ := rest
    have fresh₂ : UnserializeData.Fresh { s with type := .none } := fresh
    obtain ⟨s', searched, ⟨o, object⟩, others⟩ :=
      returns_unserializeClass fresh₂ liveContainer quiet
    obtain ⟨v, live', other⟩ : ∃ v, s'.heap.value val = some v ∧ v.string? = none := by
      by_cases same : val = container
      · exact ⟨.object o, by rw [same, object], rfl⟩
      · obtain ⟨v, value, none⟩ := not_hasMember.mp (wrong same)
        rcases others val same with before | ⟨dead, -⟩
        · exact ⟨v, before.trans value, none⟩
        · exact absurd liveVal dead
    refine ⟨.wrongType val, ?_, trivial⟩
    refine Prog.faults_bind.mpr (.inr ⟨(), _, Prog.returns_update.mpr rfl, ?_⟩)
    refine Prog.faults_bind.mpr (.inr ⟨name, _, returns_readMember.mpr ⟨⟨_, named, rfl⟩, rfl⟩, ?_⟩)
    refine Prog.faults_bind.mpr (.inr ⟨_, s', searched, ?_⟩)
    refine Prog.faults_bind.mpr (.inl ?_)
    rw [callUnserialize, if_pos handled]
    exact Prog.faults_bind.mpr (.inl (faults_readMember live' other))
  · obtain ⟨v, live, none⟩ := not_hasMember.mp keyed
    refine ⟨.wrongType key, ?_, trivial⟩
    refine Prog.faults_bind.mpr (.inr ⟨(), _, Prog.returns_update.mpr rfl, ?_⟩)
    exact Prog.faults_bind.mpr (.inl (faults_readMember live none))

variable {type : SerializeType}

theorem typeSafe_markReference {a : Addr} : TypeSafe config (markReference type a) := by
  unfold markReference
  split
  · exact typeSafe_onHeap fun _ => Heap.within_setIsRef
  · exact typeSafe_onHeap fun _ => Heap.within_setIsRef
  · exact keepsAccounts_pure

theorem typeSafe_afterNumber {id : Int} : TypeSafe config (do
      let s ← Prog.read
      match varAccess s.slots (id - 1) with
      | none => do
        Callback.warn (.invalidReferences (id - 1))
        finishMapItem key val
        return container
      | some a => do
        Callback.ptrDtor container
        Callback.onZval a fun h => h.addRef a
        markReference type a
        finishMapItem key val
        return a) := by
  refine Prog.keepsAccounts_read.bind fun s => ?_
  split
  · exact typeSafe_warn.bind fun _ => typeSafe_finishMapItem.bind fun _ => keepsAccounts_pure
  · exact typeSafe_ptrDtor.bind fun _ => (typeSafe_onZval fun _ => Heap.within_addRef).bind fun _ =>
      typeSafe_markReference.bind fun _ => typeSafe_finishMapItem.bind fun _ =>
        keepsAccounts_pure

theorem keeps_mapItemBackReference (config : Config) :
    Prog.Keeps UnserializeData.Fresh (mapItemBackReference type container key val) :=
  (typeSafe_setType : TypeSafe config _).keeps.bind fun _ => keeps_readMember.bind fun _ =>
    (typeSafe_afterNumber : TypeSafe config _).keeps

theorem accounts_mapItemBackReference (fresh : s.Fresh)
    (ok : HasMember s.heap val ZValue.long?) : Prog.Accounts (MapItemOk config) Misuse.WrongType
      (mapItemBackReference type container key val) s := by
  refine accounts_bind Prog.accounts_update fun _ s₁ set => ?_
  obtain rfl := Prog.returns_update.mp set
  refine accounts_bind (accounts_readMember fresh ok) fun id s₂ read => ?_
  obtain ⟨-, rfl⟩ := returns_readMember.mp read
  exact typeSafe_afterNumber.accounts _ fresh

theorem faults_mapItemBackReference (bad : ¬ HasMember s.heap val ZValue.long?) :
    ∃ x, Prog.Faults (mapItemBackReference type container key val) s x ∧ Misuse.WrongType x := by
  obtain ⟨v, live, none⟩ := not_hasMember.mp bad
  refine ⟨.wrongType val, ?_, trivial⟩
  refine Prog.faults_bind.mpr (.inr ⟨(), _, Prog.returns_update.mpr rfl, ?_⟩)
  exact Prog.faults_bind.mpr (.inl (faults_readMember live none))

theorem keeps_unserializeMapItem :
    Prog.Keeps UnserializeData.Fresh (unserializeMapItem config container key val) := by
  refine Prog.keeps_announce.bind fun _ => ?_
  split
  · refine (typeSafe_zval : TypeSafe config _).keeps.bind fun z => Prog.keeps_read.bind fun s => ?_
    split
    · exact (typeSafe_mapItemMarker : TypeSafe config _).keeps
    split
    · exact keeps_mapItemCustom
    · exact keeps_mapItemBackReference config
    · exact keeps_mapItemBackReference config
    · exact keeps_mapItemBackReference config
    all_goals exact (typeSafe_mapItemStore : TypeSafe config _).keeps
  · exact (typeSafe_mapItemStore : TypeSafe config _).keeps

/-- **The map-item callback reads a member of another type exactly when its call is not
of the kind `MapItemOk` describes.** -/
theorem typeSafe_unserializeMapItem :
    TypeSafe config (unserializeMapItem config container key val) := by
  refine ⟨keeps_unserializeMapItem, fun s fresh => ?_⟩
  refine Prog.accounts_announce (fun ok => ?_) fun bad => ?_
  · split
    · rename_i php
      refine accounts_bind (typeSafe_zval.accounts s fresh) fun z s₁ read => ?_
      obtain ⟨cell, rfl⟩ := returns_zval.mp read
      have live : s₁.heap.value key = some z.value := by simp [Heap.value, cell]
      refine accounts_bind Prog.accounts_read fun s₂ s₃ read => ?_
      obtain ⟨rfl, rfl⟩ := Prog.returns_read.mp read
      split
      · exact typeSafe_mapItemMarker.accounts _ fresh
      · rename_i notNull
        have typed := ok php z.value live (by simpa using notNull)
        simp only at typed
        cases type : s₃.type with
        | customObject =>
          rw [type] at typed
          exact accounts_mapItemCustom fresh typed
        | recursive | object | objectReference =>
          rw [type] at typed
          exact accounts_mapItemBackReference fresh typed
        | none | reference => exact typeSafe_mapItemStore.accounts _ fresh
    · exact typeSafe_mapItemStore.accounts s fresh
  · unfold MapItemOk at bad
    push Not at bad
    obtain ⟨php, v, live, notNull, wrong⟩ := bad
    obtain ⟨z, cell, rfl⟩ := Option.map_eq_some_iff.mp live
    obtain ⟨x, faults, wrongType⟩ : ∃ x, Prog.Faults (match s.type with
        | .customObject => mapItemCustom config container key val
        | .recursive => mapItemBackReference .recursive container key val
        | .object => mapItemBackReference .object container key val
        | .objectReference => mapItemBackReference .objectReference container key val
        | .none | .reference => mapItemStore config container key val) s x ∧
          Misuse.WrongType x := by
      cases type : s.type with
      | customObject =>
        rw [type] at wrong
        exact faults_mapItemCustom fresh wrong
      | recursive | object | objectReference =>
        rw [type] at wrong
        exact faults_mapItemBackReference wrong
      | none | reference =>
        rw [type] at wrong
        exact absurd trivial wrong
    refine ⟨x, ?_, wrongType⟩
    rw [if_pos php]
    refine Prog.faults_bind.mpr (.inr ⟨z, s, returns_zval.mpr ⟨cell, rfl⟩, ?_⟩)
    refine Prog.faults_bind.mpr (.inr ⟨s, s, Prog.returns_read.mpr ⟨rfl, rfl⟩, ?_⟩)
    rw [notNull]
    exact faults

end

theorem unserializeCallbacks_account (config : Config) :
    (unserializeCallbacks config).Account UnserializeData.Fresh (MapItemOk config)
      Misuse.WrongType where
  value _ := typeSafe_unserializeValue
  array _ := typeSafe_unserializeArray
  map _ := typeSafe_unserializeMap
  arrayItem _ _ := typeSafe_unserializeArrayItem
  mapItem _ _ _ := typeSafe_unserializeMapItem

end

/-! ## Runs of the decoder -/

/-- **A run of the decoder reads no member of another type exactly when every call of
the map-item callback is of the kind `MapItemOk` describes.** -/
theorem unserialize_typeSafe_iff (config : Config) (str : Bytes) (fuel : Nat) (retval : Addr)
    (h : Heap) (fresh : h.Fresh) :
    (∀ a, (unserialize config str fuel retval h).result ≠ .fault (.callback (.wrongType a))) ↔
      ∀ call ∈ (unserialize config str fuel retval h).log, MapItemOk config call := by
  have account : ParserAccounts UnserializeData.Fresh (MapItemOk config) Misuse.WrongType
      (execute (unserializeCallbacks config) str fuel) :=
    parserAccounts_execute (unserializeCallbacks_account config)
  have accounts := account.accounts (Context.init (unserializeInit retval h)) fresh
  refine Iff.trans ⟨fun typed x faults wrong => ?_, fun typed a faults => ?_⟩ accounts.symm
  · cases x with
    | callback misuse =>
      cases misuse with
      | wrongType a => exact typed a faults
      | _ => exact wrong
    | _ => exact wrong
  · exact typed _ faults trivial

def Config.default : Config :=
  { phpOnly := true, illegalKeyInsert := false, user := .nothing, convertToString := fun _ => [] }

def resultHeap : Heap := (Heap.empty id).allocInitZval

theorem fresh_resultHeap : resultHeap.Fresh :=
  Heap.fresh_allocInitZval nofun

theorem unserialize_typeSafe_pair :
    ¬ ∃ a, (unserialize .default [0x81, 0xa1, 0x61, 1] 5 0 resultHeap).result =
      .fault (.callback (.wrongType a)) := by
  have safe := (unserialize_typeSafe_iff .default [0x81, 0xa1, 0x61, 1] 5 0 resultHeap
    fresh_resultHeap).mpr fun call member => by
      obtain rfl := List.mem_singleton.mp member
      exact fun _ _ _ _ => trivial
  rintro ⟨a, wrong⟩
  exact safe a wrong

/-- The marker `CUSTOM_OBJECT` before a pair of numbers, and the marker `RECURSIVE`
before a string. -/
theorem unserialize_wrongType : (unserialize .default [0x82, 0xc0, 3, 0, 0] 6 0 resultHeap).result =
      .fault (.callback (.wrongType 3)) ∧
    (unserialize .default [0x82, 0xc0, 2, 0, 0xa1, 0x61] 7 0 resultHeap).result =
      .fault (.callback (.wrongType 4)) := by
  decide +kernel

end PhpExts.Msgpack
