import PhpExts.Zend.HashTable
import Mathlib.Order.Nat

/-!
# Values of the engine and their heap

A `zval` is a cell of the heap: a value, a reference count and the mark of a PHP
reference. An array value owns its hash table, whose buckets hold pointers to
other zvals; an object value is a handle into the object store, where the class
entry, the property table and the state a class keeps for itself live. The heap
hands out addresses in order and never reuses one, so a zval is freed exactly
when its cell is empty.

`ptrDtor` is `zval_ptr_dtor`: it drops one count, and when the count reaches
zero it releases what the value holds and frees the cell. The garbage
collector's cycle search is not part of the model.
-/

namespace PhpExts.Zend

open Function (update update_apply)

abbrev Addr := Nat

abbrev Handle := Nat

/-- What the extensions ask of a class entry: its name, whether it is the
stand-in for a class that is not defined, its two handlers of the `Serializable`
interface, and which of the magic methods its function table has. -/
structure ClassEntry where
  name : Bytes
  isIncomplete : Bool
  serialize : Bool
  unserialize : Bool
  sleep : Bool
  wakeup : Bool
  deriving DecidableEq

inductive ZValue where
  | null
  | bool (b : Bool)
  | long (l : Int)
  | double (bits : Nat)
  | string (s : Bytes)
  | array (table : HashTable Addr)
  | object (handle : Handle)
  | resource (id : Nat)

/-- `Z_TYPE_P(z) == IS_NULL`. -/
def ZValue.isNull : ZValue → Bool
  | .null => true
  | _ => false

def ZValue.string? : ZValue → Option Bytes
  | .string s => some s
  | _ => none

def ZValue.long? : ZValue → Option Int
  | .long l => some l
  | _ => none

structure Zval where
  value : ZValue
  refcount : Nat
  isRef : Bool

/-- An entry of the object store. `state` is what the class's own `unserialize`
handler has kept. -/
structure ObjectCell where
  ce : ClassEntry
  properties : HashTable Addr
  refcount : Nat
  state : Option Bytes

/-- Zvals and objects, and the next address and handle that are free. The object
of a handle lives at `objectAddress`, which is what `zend_objects_get_address`
gives. -/
structure Heap where
  zvals : Addr → Option Zval
  nextAddr : Addr
  objects : Handle → Option ObjectCell
  nextHandle : Handle
  objectAddress : Handle → Nat

namespace Heap

/-- The heap in which nothing has been allocated. -/
def empty (objectAddress : Handle → Nat) : Heap :=
  ⟨fun _ => none, 0, fun _ => none, 0, objectAddress⟩

def value (h : Heap) (a : Addr) : Option ZValue := (h.zvals a).map Zval.value

/-- Whether a zval has been allocated and not been freed. -/
def live (h : Heap) (a : Addr) : Bool := (h.zvals a).isSome

/-- `Z_ISREF_P`. -/
def isRef (h : Heap) (a : Addr) : Bool := (h.zvals a).any Zval.isRef

def setZval (h : Heap) (a : Addr) (cell : Option Zval) : Heap :=
  { h with zvals := update h.zvals a cell }

def setObject (h : Heap) (o : Handle) (cell : Option ObjectCell) : Heap :=
  { h with objects := update h.objects o cell }

def modifyZval (h : Heap) (a : Addr) (f : Zval → Zval) : Heap :=
  h.setZval a ((h.zvals a).map f)

/-- `ALLOC_INIT_ZVAL`: a fresh zval holding null. -/
def allocInitZval (h : Heap) : Heap :=
  { h with
    zvals := update h.zvals h.nextAddr (some ⟨.null, 1, false⟩)
    nextAddr := h.nextAddr + 1 }

/-- `Z_TYPE_P(z) = ...` together with the value. -/
def setValue (h : Heap) (a : Addr) (v : ZValue) : Heap :=
  h.modifyZval a fun z => { z with value := v }

/-- `Z_ADDREF_P`. -/
def addRef (h : Heap) (a : Addr) : Heap :=
  h.modifyZval a fun z => { z with refcount := z.refcount + 1 }

/-- `Z_SET_ISREF_TO_P`. -/
def setIsRef (h : Heap) (a : Addr) (mark : Bool) : Heap :=
  h.modifyZval a fun z => { z with isRef := mark }

/-- Release what a value holds, with `release` for the zvals it points to. -/
def dtorValue (release : Heap → Addr → Heap) (h : Heap) : ZValue → Heap
  | .array table => table.values.foldl release h
  | .object o =>
    match h.objects o with
    | none => h
    | some cell =>
      if 1 < cell.refcount then
        h.setObject o (some { cell with refcount := cell.refcount - 1 })
      else cell.properties.values.foldl release (h.setObject o none)
  | _ => h

/-- `zval_ptr_dtor`, nested at most `n` deep. -/
def ptrDtorDepth : Nat → Heap → Addr → Heap
  | 0, h, _ => h
  | n + 1, h, a =>
    match h.zvals a with
    | none => h
    | some z =>
      if 1 < z.refcount then
        h.setZval a (some { z with
          refcount := z.refcount - 1
          isRef := if z.refcount = 2 then false else z.isRef })
      else dtorValue (ptrDtorDepth n) (h.setZval a none) z.value

/-- `zval_ptr_dtor`. Every level of nesting frees a zval, so the number of
addresses handed out bounds the nesting. -/
def ptrDtor (h : Heap) (a : Addr) : Heap := ptrDtorDepth (h.nextAddr + 1) h a

/-- `zval_dtor(*z); ZVAL_NULL(*z)`: release what the zval holds and make it null. -/
def dtorToNull (h : Heap) (a : Addr) : Heap :=
  match h.value a with
  | none => h
  | some v => (dtorValue ptrDtor h v).setValue a .null

/-- `object_init_ex`: a new object of the class, held by the zval. -/
def objectInitEx (h : Heap) (a : Addr) (ce : ClassEntry) : Heap :=
  Heap.setValue
    { h.setObject h.nextHandle (some ⟨ce, .empty, 1, none⟩) with nextHandle := h.nextHandle + 1 }
    a (.object h.nextHandle)

variable {h : Heap} {a : Addr} {b : Addr}

theorem zvals_setZval {cell : Option Zval} :
    (h.setZval a cell).zvals b = if b = a then cell else h.zvals b := by
  simp [setZval, update_apply]

variable {cell : Option ObjectCell}

@[simp] theorem zvals_setObject {o : Handle} : (h.setObject o cell).zvals = h.zvals := rfl

theorem zvals_modifyZval {f : Zval → Zval} :
    (h.modifyZval a f).zvals b = if b = a then (h.zvals a).map f else h.zvals b :=
  zvals_setZval

theorem zvals_allocInitZval :
    h.allocInitZval.zvals b = if b = h.nextAddr then some ⟨.null, 1, false⟩ else h.zvals b := by
  simp [allocInitZval, update_apply]

theorem value_modifyZval {f : Zval → Zval} : (h.modifyZval a f).value b =
      if b = a then (h.zvals a).map fun z => (f z).value else h.value b := by
  simp only [value, zvals_modifyZval]
  split
  · simp [Function.comp_def]
  · rfl

theorem value_setValue {v : ZValue} :
    (h.setValue a v).value b = if b = a then (h.value a).map fun _ => v else h.value b := by
  rw [setValue, value_modifyZval]
  simp [value, Function.comp_def]

@[simp] theorem value_setObject {o : Handle} : (h.setObject o cell).value b = h.value b := rfl

theorem value_allocInitZval :
    h.allocInitZval.value b = if b = h.nextAddr then some .null else h.value b := by
  simp only [value, zvals_allocInitZval]
  split <;> rfl

theorem value_objectInitEx {ce : ClassEntry} : (h.objectInitEx a ce).value b =
      if b = a then (h.value a).map fun _ => .object h.nextHandle else h.value b := by
  rw [objectInitEx, value_setValue]
  rfl

@[simp] theorem objects_setValue {v : ZValue} : (h.setValue a v).objects = h.objects := rfl

@[simp] theorem objects_allocInitZval : h.allocInitZval.objects = h.objects := rfl

theorem objects_objectInitEx {ce : ClassEntry} {o : Handle} : (h.objectInitEx a ce).objects o =
      if o = h.nextHandle then some ⟨ce, .empty, 1, none⟩ else h.objects o := by
  simp [objectInitEx, setObject, update_apply]

@[simp] theorem nextAddr_objectInitEx {ce : ClassEntry} :
    (h.objectInitEx a ce).nextAddr = h.nextAddr := rfl

theorem live_iff_value : h.live a ↔ ∃ v, h.value a = some v := by
  simp [live, value, Option.isSome_iff_exists]

/-- The reference count of a zval, zero if it has been freed. -/
def refcount (h : Heap) (a : Addr) : Nat := ((h.zvals a).map Zval.refcount).getD 0

theorem refcount_setZval {cell : Option Zval} : (h.setZval a cell).refcount b =
      if b = a then (cell.map Zval.refcount).getD 0 else h.refcount b := by
  by_cases same : b = a
  · simp [refcount, setZval, same]
  · simp [refcount, setZval, same]

@[simp] theorem refcount_setObject {o : Handle} :
    (h.setObject o cell).refcount b = h.refcount b := rfl

variable {release : Heap → Addr → Heap}

theorem refcount_foldl_le
    (decreases : ∀ h a b, (release h a).refcount b ≤ h.refcount b) (h : Heap) (as : List Addr)
    (b : Addr) : (as.foldl release h).refcount b ≤ h.refcount b := by
  induction as generalizing h with
  | nil => exact le_refl _
  | cons a as ih => exact (ih _).trans (decreases h a b)

theorem refcount_dtorValue_le
    (decreases : ∀ h a b, (release h a).refcount b ≤ h.refcount b) (h : Heap) (v : ZValue)
    (b : Addr) : (dtorValue release h v).refcount b ≤ h.refcount b := by
  cases v with
  | array table => exact refcount_foldl_le decreases h _ b
  | object o =>
    simp only [dtorValue]
    split
    · exact le_refl _
    · split
      · exact le_refl _
      · exact refcount_foldl_le decreases _ _ b
  | _ => exact le_refl _

theorem refcount_ptrDtorDepth_le (n : Nat) (h : Heap) (a b : Addr) :
    (ptrDtorDepth n h a).refcount b ≤ h.refcount b ∧
      (0 < n → (ptrDtorDepth n h a).refcount a ≤ h.refcount a - 1) := by
  induction n generalizing h a b with
  | zero => exact ⟨le_refl _, fun pos => absurd pos (lt_irrefl _)⟩
  | succ n ih =>
    have inner : ∀ (h : Heap) (a b : Addr), (ptrDtorDepth n h a).refcount b ≤ h.refcount b :=
      fun h a b => (ih h a b).1
    rcases cell : h.zvals a with _ | z
    · simp [ptrDtorDepth, cell, refcount]
    · have count : h.refcount a = z.refcount := by simp [refcount, cell]
      simp only [ptrDtorDepth, cell]
      split
      · simp only [refcount_setZval, Option.map_some, Option.getD_some, if_true, count]
        refine ⟨?_, fun _ => le_refl _⟩
        split
        · rename_i same
          rw [same, count]
          omega
        · exact le_refl _
      · have freed := refcount_dtorValue_le inner (h.setZval a none) z.value
        refine ⟨(freed b).trans ?_, fun _ => (freed a).trans ?_⟩
        · rw [refcount_setZval]
          split
          · exact Nat.zero_le _
          · exact le_refl _
        · simp [refcount_setZval]

theorem refcount_ptrDtor_le (h : Heap) (a b : Addr) : (h.ptrDtor a).refcount b ≤ h.refcount b :=
  (refcount_ptrDtorDepth_le _ h a b).1

theorem refcount_ptrDtor_self_le (h : Heap) (a : Addr) :
    (h.ptrDtor a).refcount a ≤ h.refcount a - 1 :=
  (refcount_ptrDtorDepth_le _ h a a).2 (Nat.succ_pos _)

theorem refcount_foldl_ptrDtor_le (h : Heap) (as : List Addr) (b : Addr) :
    (as.foldl ptrDtor h).refcount b ≤ h.refcount b - as.count b := by
  induction as generalizing h with
  | nil => simp
  | cons a as ih =>
    refine (ih _).trans ?_
    rw [List.count_cons]
    by_cases same : a = b
    · subst same
      have := refcount_ptrDtor_self_le h a
      simp only [beq_self_eq_true, if_true]
      omega
    · have := refcount_ptrDtor_le h a b
      simp only [beq_iff_eq, same, if_false]
      omega

def Fresh (h : Heap) : Prop := ∀ a, h.live a → a < h.nextAddr

def Within (h h' : Heap) : Prop := h'.nextAddr = h.nextAddr ∧ ∀ a, h'.live a → h.live a

theorem Within.refl (h : Heap) : Within h h := ⟨rfl, fun _ live => live⟩

theorem Within.trans {h' h'' : Heap} (first : Within h h') (second : Within h' h'') :
    Within h h'' :=
  ⟨second.1.trans first.1, fun a live => first.2 a (second.2 a live)⟩

theorem Within.fresh {h' : Heap} (within : Within h h') (fresh : h.Fresh) : h'.Fresh :=
  fun a live => within.1 ▸ fresh a (within.2 a live)

theorem within_setZval {cell : Option Zval}
    (live : cell.isSome → h.live a) : Within h (h.setZval a cell) := by
  refine ⟨rfl, fun b => ?_⟩
  by_cases same : b = a
  · subst same
    simpa [Heap.live, setZval] using live
  · simp [Heap.live, setZval, same]

theorem within_setObject {o : Handle} : Within h (h.setObject o cell) := ⟨rfl, fun _ live => live⟩

theorem within_modifyZval {f : Zval → Zval} : Within h (h.modifyZval a f) :=
  within_setZval fun some => by rwa [Option.isSome_map] at some

theorem within_setValue {v : ZValue} : Within h (h.setValue a v) :=
  within_modifyZval

theorem within_addRef : Within h (h.addRef a) := within_modifyZval

theorem within_setIsRef {mark : Bool} : Within h (h.setIsRef a mark) :=
  within_modifyZval

theorem within_objectInitEx {ce : ClassEntry} : Within h (h.objectInitEx a ce) := by
  have created : Within h { h.setObject h.nextHandle (some ⟨ce, .empty, 1, none⟩) with
      nextHandle := h.nextHandle + 1 } := ⟨rfl, fun _ live => live⟩
  exact created.trans within_setValue

theorem within_foldl (each : ∀ h a, Within h (release h a))
    (h : Heap) (as : List Addr) : Within h (as.foldl release h) := by
  induction as generalizing h with
  | nil => exact .refl h
  | cons a as ih => exact (each h a).trans (ih _)

theorem within_dtorValue (each : ∀ h a, Within h (release h a))
    (h : Heap) (v : ZValue) : Within h (dtorValue release h v) := by
  cases v with
  | array table => exact within_foldl each h _
  | object o =>
    simp only [dtorValue]
    split
    · exact .refl h
    · split
      · exact within_setObject
      · exact within_setObject.trans (within_foldl each _ _)
  | _ => exact .refl h

theorem within_ptrDtorDepth (n : Nat) (h : Heap) (a : Addr) : Within h (ptrDtorDepth n h a) := by
  induction n generalizing h a with
  | zero => exact .refl h
  | succ n ih =>
    rw [ptrDtorDepth]
    split
    · exact .refl h
    · rename_i z cell
      split
      · exact within_setZval fun _ => by simp [Heap.live, cell]
      · exact (within_setZval fun some => by cases some).trans (within_dtorValue ih _ _)

theorem within_ptrDtor : Within h (h.ptrDtor a) :=
  within_ptrDtorDepth _ h a

theorem within_dtorToNull : Within h (h.dtorToNull a) := by
  rw [dtorToNull]
  split
  · exact .refl h
  · exact (within_dtorValue (fun _ _ => within_ptrDtor) _ _).trans within_setValue

theorem fresh_allocInitZval (fresh : h.Fresh) : h.allocInitZval.Fresh := by
  intro a live
  by_cases same : a = h.nextAddr
  · subst same
    exact Nat.lt_succ_self _
  · refine Nat.lt_succ_of_lt (fresh a ?_)
    simpa [Heap.live, allocInitZval, same] using live

end Heap

/-- `HASH_OF(*z)`. -/
def hashOf (h : Heap) (z : Addr) : HashTable Addr :=
  match h.value z with
  | some (.array table) => table
  | some (.object o) => ((h.objects o).map ObjectCell.properties).getD .empty
  | _ => .empty

/-- Replace the table `HASH_OF(*z)`. -/
def setHashOf (h : Heap) (z : Addr) (table : HashTable Addr) : Heap :=
  match h.value z with
  | some (.array _) => h.setValue z (.array table)
  | some (.object o) =>
    h.setObject o ((h.objects o).map fun cell => { cell with properties := table })
  | _ => h

theorem within_setHashOf {h : Heap} {z : Addr} {table : HashTable Addr} :
    h.Within (setHashOf h z table) := by
  rw [setHashOf]
  split
  · exact Heap.within_setValue
  · exact Heap.within_setObject
  · exact .refl h

end PhpExts.Zend
