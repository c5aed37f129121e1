import PhpExts.Msgpack.Encoded
import PhpExts.Msgpack.Depth
import Mathlib

/-!
# What the decoder makes of a plain value

The decoder's callbacks build of the object the encoder has written for a value
the value `decoded`: a map has its keys in their order, a list the positions
(`makes_toMsg`). The zvals they make are fresh, so that what has been built is
out of reach of what is built later; only the zval of a key is freed again, and
it lies between the zvals of the table and those of the new value.
-/

namespace PhpExts.Msgpack.RoundTrip

open PhpExts.Zend PhpExts.Library
open Depth (opened)
open Prog (returns_bind returns_pure returns_read returns_update)

variable {config : Config} {u u' u'' : UnserializeData}

variable {entries : List (HashKey × PhpValue)}

/-- The addresses from `lo` on and below `hi`. -/
def Between (lo hi : Nat) (a : Addr) : Prop := lo ≤ a ∧ a < hi

/-- The values of a list under their positions, from `k` on. -/
def indexed : Nat → List PhpValue → List (HashKey × PhpValue)
  | _, [] => []
  | k, w :: ws => (.index k, w) :: indexed (k + 1) ws

theorem indexed_append (k : Nat) (ws : List PhpValue) (w : PhpValue) :
    indexed k (ws ++ [w]) = indexed k ws ++ [(.index ((k + ws.length : Nat) : Int), w)] := by
  induction ws generalizing k with
  | nil => rfl
  | cons v ws ih =>
    simp only [List.cons_append, indexed, ih, List.length_cons]
    rw [show k + 1 + ws.length = k + (ws.length + 1) by omega]

theorem mem_keys_indexed {k : Nat} {ws : List PhpValue} {key : HashKey}
    (mem : key ∈ (indexed k ws).map Prod.fst) : ∃ i : Nat, key = .index i ∧ i < k + ws.length := by
  induction ws generalizing k with
  | nil => cases mem
  | cons w ws ih =>
    rcases List.mem_cons.mp mem with rfl | mem
    · exact ⟨k, rfl, by simp⟩
    · obtain ⟨i, same, less⟩ := ih mem
      exact ⟨i, same, by rw [List.length_cons]; omega⟩

/-! ## The decoder's state -/

/-- The decoder goes on with a value: no marker is pending, and the result of the caller is
untouched as long as no container is open. -/
structure Settled (u : UnserializeData) : Prop where
  type : u.type = .none
  fresh : u.heap.Fresh
  result : u.stack = [] → u.heap.zvals u.retval = some ⟨.null, 1, false⟩

def home (u : UnserializeData) : Addr := if u.stack = [] then u.retval else u.heap.nextAddr

/-- The callbacks have changed no zval but fresh ones and `x`. -/
structure Extends (x : Addr) (u u' : UnserializeData) : Prop where
  retval : u'.retval = u.retval
  type : u'.type = .none
  fresh : u'.heap.Fresh
  grows : u.heap.nextAddr ≤ u'.heap.nextAddr
  kept : ∀ a, a < u.heap.nextAddr → a ≠ x → u'.heap.zvals a = u.heap.zvals a

theorem Extends.trans {x : Addr} (first : Extends x u u') (second : Extends x u' u'') :
    Extends x u u'' where
  retval := second.retval.trans first.retval
  type := second.type
  fresh := second.fresh
  grows := first.grows.trans second.grows
  kept a less other :=
    (second.kept a (Nat.lt_of_lt_of_le less first.grows) other).trans (first.kept a less other)

theorem Extends.widen {x y : Addr} (framed : Extends x u u') (fresh : u.heap.nextAddr ≤ x) :
    Extends y u u' :=
  { framed with
    kept := fun a less _ => framed.kept a less (Nat.ne_of_lt (Nat.lt_of_lt_of_le less fresh)) }

structure Allocated (u u' : UnserializeData) : Prop extends Extends (home u) u u' where
  stack : u'.stack = u.stack
  cell : u'.heap.zvals (home u) = some ⟨.null, 1, false⟩

/-- The decoder has built the value `w` in the zval `obj`. -/
structure Built (u : UnserializeData) (obj : Addr) (u' : UnserializeData) (w : PhpValue) : Prop
    extends Extends obj u u' where
  home : obj = home u
  stack : u'.stack = u.stack
  denotes : Denotes u'.heap (fun a => a = obj ∨ Between u.heap.nextAddr u'.heap.nextAddr a) obj w

/-- The object `m` is read as the value `w`. -/
def Makes (config : Config) (m : Msg) (w : PhpValue) : Prop :=
  ∀ u, Settled u → u.stack.length + m.depth ≤ embedStackSize →
    ∃ obj u', Prog.Returns (m.eval (unserializeCallbacks config)) u obj u' ∧ Built u obj u' w

theorem home_of_open (opened : u.stack ≠ []) : home u = u.heap.nextAddr := if_neg opened

theorem allocated_retval (ready : Settled u) (closed : u.stack = []) (slots : List Addr)
    (dtors : List (List (Option Addr))) :
    Allocated u { u with slots := slots, dtors := dtors } where
  retval := rfl
  type := ready.type
  fresh := ready.fresh
  grows := le_refl _
  kept _ _ _ := rfl
  stack := rfl
  cell := by rw [home, if_pos closed]; exact ready.result closed

theorem allocated_fresh (ready : Settled u) (opened : u.stack ≠ []) (slots : List Addr)
    (dtors : List (List (Option Addr))) :
    Allocated u { u with slots := slots, dtors := dtors, heap := u.heap.allocInitZval } where
  retval := rfl
  type := ready.type
  fresh := Heap.fresh_allocInitZval ready.fresh
  grows := Nat.le_succ _
  kept a less _ := by rw [Heap.zvals_allocInitZval, if_neg (Nat.ne_of_lt less)]
  stack := rfl
  cell := by rw [home_of_open opened, Heap.zvals_allocInitZval, if_pos rfl]

theorem returns_allocInitZval : Prog.Returns Callback.allocInitZval u u.heap.nextAddr
      { u with heap := u.heap.allocInitZval } := by
  simp only [Callback.allocInitZval, Callback.onHeap, returns_bind, returns_read,
    returns_update, returns_pure]
  exact ⟨u, u, ⟨rfl, rfl⟩, (), _, rfl, rfl, rfl⟩

theorem returns_zval {a : Addr} {z : Zval} (cell : u.heap.zvals a = some z) :
    Prog.Returns (Callback.zval a) u z u := by
  simp only [Callback.zval, returns_bind, returns_read]
  refine ⟨u, u, ⟨rfl, rfl⟩, ?_⟩
  rw [cell]
  exact Prog.returns_pure.mpr ⟨rfl, rfl⟩

theorem returns_allocStack (ready : Settled u) :
    ∃ u', Prog.Returns allocStack u (home u) u' ∧ Allocated u u' := by
  simp only [allocStack, returns_bind, returns_read]
  by_cases closed : u.stack = []
  · refine ⟨_, ⟨u, u, ⟨rfl, rfl⟩, ?_⟩,
      allocated_retval ready closed u.slots (pushDtor none u.dtors)⟩
    simp only [closed, if_true, stackPush, returns_bind, returns_update,
      returns_pure, home]
    exact ⟨(), _, rfl, trivial, rfl⟩
  · refine ⟨_, ⟨u, u, ⟨rfl, rfl⟩, ?_⟩,
      allocated_fresh ready closed u.slots (pushDtor (some u.heap.nextAddr) u.dtors)⟩
    simp only [closed, if_false, stackPush, returns_bind, returns_update,
      returns_pure, home]
    exact ⟨_, _, returns_allocInitZval, (), _, rfl, rfl, rfl⟩

theorem returns_allocValue (ready : Settled u) :
    ∃ u', Prog.Returns allocValue u (home u) u' ∧ Allocated u u' := by
  simp only [allocValue, returns_bind, returns_read]
  by_cases closed : u.stack = []
  · refine ⟨_, ⟨u, u, ⟨rfl, rfl⟩, ?_⟩,
      allocated_retval ready closed (u.slots ++ [u.retval]) u.dtors⟩
    simp only [closed, if_true, varPush, returns_bind, returns_update,
      returns_pure, home]
    exact ⟨(), _, rfl, trivial, rfl⟩
  · refine ⟨_, ⟨u, u, ⟨rfl, rfl⟩, ?_⟩,
      allocated_fresh ready closed (u.slots ++ [u.heap.nextAddr]) u.dtors⟩
    simp only [closed, if_false, varPush, returns_bind, returns_update,
      returns_pure, home]
    exact ⟨_, _, returns_allocInitZval, (), _, rfl, rfl, rfl⟩

theorem zvals_setValue {h : Heap} {a b : Addr} {v : ZValue} : (h.setValue a v).zvals b =
      if b = a then (h.zvals a).map fun z => { z with value := v } else h.zvals b :=
  Heap.zvals_modifyZval

theorem Extends.setValue {x : Addr} (framed : Extends x u u') (v : ZValue) :
    Extends x u { u' with heap := u'.heap.setValue x v } :=
  { framed with
    fresh := Heap.within_setValue.fresh framed.fresh
    kept := fun a less other => by
      rw [zvals_setValue, if_neg other]
      exact framed.kept a less other }

structure BuiltScalar (u u' : UnserializeData) (z : ZValue) : Prop
    extends Extends (home u) u u' where
  stack : u'.stack = u.stack
  cell : u'.heap.zvals (home u) = some ⟨z, 1, false⟩

theorem returns_unserializeValue (ready : Settled u) (value : Value) :
    ∃ u', Prog.Returns (unserializeValue value) u (home u) u' ∧
      BuiltScalar u u' value.toZValue := by
  obtain ⟨u₁, alloc, allocated⟩ := returns_allocStack ready
  refine ⟨{ u₁ with heap := u₁.heap.setValue (home u) value.toZValue }, ?_,
    { allocated.toExtends.setValue value.toZValue with
      stack := allocated.stack
      cell := by rw [zvals_setValue, if_pos rfl, allocated.cell]; rfl }⟩
  simp only [unserializeValue, Callback.onHeap, returns_bind, returns_update,
    returns_pure]
  exact ⟨_, _, alloc, (), _, rfl, rfl, rfl⟩

theorem makes_scalar {x : Scalar} {w : PhpValue} (scalar : w.scalar = some x.value.toZValue) :
    Makes config (.scalar x) w := by
  intro u ready _
  obtain ⟨u', returns, built⟩ := returns_unserializeValue ready x.value
  refine ⟨_, u', returns, { built.toExtends with
    home := rfl
    stack := built.stack
    denotes := (denotes_scalar scalar).mpr ⟨.inl rfl, ?_, ?_⟩ }⟩
  · rw [Heap.isRef, built.cell]
    rfl
  · rw [Heap.value, built.cell]
    rfl

/-- The container is an array with the entries, whose zvals are from `lo` on; the container
is not one of them. -/
structure Filling (lo : Nat) (container : Addr) (next : Nat) (entries : List (HashKey × PhpValue))
    (u : UnserializeData) : Prop where
  type : u.type = .none
  fresh : u.heap.Fresh
  below : container < lo
  le : lo ≤ u.heap.nextAddr
  filled : ∃ buckets, u.heap.zvals container = some ⟨.array ⟨buckets, next⟩, 1, false⟩ ∧
    DenoteEntries u.heap (Between lo u.heap.nextAddr) buckets entries

theorem Filling.ready {lo next : Nat} {container : Addr} {entries : List (HashKey × PhpValue)}
    (filling : Filling lo container next entries u) (opened : u.stack ≠ []) : Settled u :=
  ⟨filling.type, filling.fresh, fun closed => absurd closed opened⟩

theorem Filling.ne {lo next n : Nat} {container a : Addr} {entries : List (HashKey × PhpValue)}
    (filling : Filling lo container next entries u) (between : Between lo n a) : a ≠ container :=
  Nat.ne_of_gt (Nat.lt_of_lt_of_le filling.below between.1)

theorem Built.less {obj : Addr} {w : PhpValue} (built : Built u obj u' w) :
    obj < u'.heap.nextAddr := by
  refine built.fresh obj ?_
  have denotes := built.denotes
  rw [Heap.live_iff_value]
  cases w <;> simp only [Denotes, PhpValue.scalar] at denotes
  case array => exact ⟨_, denotes.2.2.choose_spec.1⟩
  all_goals exact ⟨_, denotes.2.2⟩

theorem DenoteEntries.add {h h₁ h' : Heap} {lo n n' : Nat} {buckets : List (HashKey × Addr)}
     {key : HashKey} {obj : Addr} {w : PhpValue}
    {region : Addr → Prop} (filled : DenoteEntries h (Between lo n) buckets entries)
    (kept : ∀ a, Between lo n a → h'.zvals a = h.zvals a) (grows : n ≤ n')
    (denotes : Denotes h₁ region obj w) (same : ∀ a, region a → h'.zvals a = h₁.zvals a)
    (inside : ∀ a, region a → Between lo n' a) :
    DenoteEntries h' (Between lo n') (buckets ++ [(key, obj)]) (entries ++ [(key, w)]) :=
  DenoteEntries.append entries
    (DenoteEntries.frame kept (fun _ between => ⟨between.1, Nat.lt_of_lt_of_le between.2 grows⟩)
      entries filled)
    (Denotes.frame same inside w denotes)

theorem returns_openContainer (count : Nat) (room : u.stack.length < embedStackSize) :
    Prog.Returns (openContainer count) u () { u with stack := opened count u.stack } := by
  simp only [openContainer, returns_bind, returns_read]
  refine ⟨u, u, ⟨rfl, rfl⟩, ?_⟩
  rw [opened]
  split
  · exact Prog.returns_pure.mpr ⟨rfl, rfl⟩
  · rw [if_neg (by omega)]
    exact Prog.returns_update.mpr rfl

variable {rest : List Nat}

theorem returns_countItem {n : Nat} (top : u.stack = (n + 1) :: rest) :
    Prog.Returns countItem u () { u with stack := opened n rest } := by
  simp only [countItem, returns_bind, returns_read]
  refine ⟨u, u, ⟨rfl, rfl⟩, ?_⟩
  rw [top]
  simp only [returns_update, opened, Nat.add_eq_right, Nat.add_sub_cancel]

structure Opened (count : Nat) (value : ZValue) (u u' : UnserializeData) : Prop
    extends Extends (home u) u u' where
  stack : u'.stack = opened count u.stack
  cell : u'.heap.zvals (home u) = some ⟨value, 1, false⟩

theorem returns_unserializeArray (count : Nat) (ready : Settled u)
    (room : u.stack.length < embedStackSize) :
    ∃ u', Prog.Returns (unserializeArray count) u (home u) u' ∧
      Opened count (.array .empty) u u' := by
  obtain ⟨u₁, alloc, allocated⟩ := returns_allocValue ready
  have opening := returns_openContainer count
    (u := { u₁ with heap := u₁.heap.setValue (home u) (.array .empty) })
    (by simpa only [allocated.stack] using room)
  refine ⟨{ u₁ with
    heap := u₁.heap.setValue (home u) (.array .empty)
    stack := opened count u₁.stack }, ?_, { allocated.toExtends.setValue (.array .empty) with
      stack := by simp only [allocated.stack]
      cell := by
        simp only
        rw [zvals_setValue, if_pos rfl, allocated.cell]
        rfl }⟩
  simp only [unserializeArray, Callback.onHeap, returns_bind, returns_update,
    returns_pure]
  exact ⟨_, _, alloc, (), _, rfl, (), _, opening, rfl, rfl⟩

theorem returns_unserializeMap (config : Config) (count : Nat) (ready : Settled u)
    (room : u.stack.length < embedStackSize) (some : count ≠ 0) :
    ∃ u', Prog.Returns (unserializeMap config count) u (home u) u' ∧ Opened count .null u u' := by
  obtain ⟨u₁, alloc, allocated⟩ := returns_allocValue ready
  have opening := returns_openContainer count (u := u₁)
    (by simpa only [allocated.stack] using room)
  refine ⟨{ u₁ with stack := opened count u₁.stack, type := .none }, ?_,
    { allocated.toExtends with
      type := rfl
      stack := by simp only [allocated.stack]
      cell := allocated.cell }⟩
  simp only [unserializeMap, initMap, if_neg some, Callback.setType, returns_bind,
    returns_update, returns_pure]
  exact ⟨_, _, alloc, (), _, opening, (), _, rfl, (), _, ⟨trivial, rfl⟩, rfl, rfl⟩

theorem bump_index {n : Nat} (small : n < 2 ^ 32) : HashTable.bump .eight n (.index n) = n + 1 := by
  have room : ((2 : Int) ^ 32) ≤ WordSize.eight.longMax := by decide
  have less : (n : Int) < WordSize.eight.longMax := lt_of_lt_of_le (by omega) room
  rw [HashTable.bump, if_pos (le_refl _), if_pos less]
  omega

variable {container : Addr}

theorem returns_unserializeArrayItem {lo n : Nat} {obj : Addr} {done : List PhpValue}
    {w : PhpValue} (filling : Filling lo container done.length (indexed 0 done) u)
    (top : u.stack = (n + 1) :: rest) (small : done.length < 2 ^ 32) (built : Built u obj u' w) :
    ∃ u'', Prog.Returns (unserializeArrayItem container obj) u' container u'' ∧
      Extends container u u'' ∧ u''.stack = opened n rest ∧
      Filling lo container (done ++ [w]).length (indexed 0 (done ++ [w])) u'' := by
  have isOpen : u.stack ≠ [] := by rw [top]; exact List.cons_ne_nil _ _
  have place : obj = u.heap.nextAddr := built.home.trans (home_of_open isOpen)
  obtain ⟨buckets, cell, filled⟩ := filling.filled
  have older : container < u.heap.nextAddr := Nat.lt_of_lt_of_le filling.below filling.le
  have cell' : u'.heap.zvals container = some ⟨.array ⟨buckets, done.length⟩, 1, false⟩ := by
    rw [built.kept container older (Nat.ne_of_lt (place ▸ older)), cell]
  have absent : buckets.lookup (.index done.length) = none := by
    rw [HashTable.lookup_eq_none_iff, filled.keys]
    intro mem
    obtain ⟨i, same, less⟩ := mem_keys_indexed mem
    have same : done.length = i := by simpa using same
    rw [Nat.zero_add, same] at less
    exact Nat.lt_irrefl _ less
  have appended : HashTable.nextIndexInsert .eight ⟨buckets, done.length⟩ obj =
      some ⟨buckets ++ [(.index done.length, obj)], done.length + 1⟩ := by
    simp only [HashTable.nextIndexInsert, HashTable.find, absent, HashTable.update,
      bump_index small]
    rw [HashTable.store_of_notMem (HashTable.lookup_eq_none_iff.mp absent)]
  have framed : Extends container u u' := built.toExtends.widen (Nat.le_of_eq place.symm)
  have stored := framed.setValue (.array ⟨buckets ++ [(.index done.length, obj)], done.length + 1⟩)
  refine ⟨{ u' with
    heap := u'.heap.setValue container
      (.array ⟨buckets ++ [(.index done.length, obj)], done.length + 1⟩)
    dtors := popDtor 1 u'.dtors
    stack := opened n rest }, ?_, { stored with }, rfl, ?_⟩
  · simp only [unserializeArrayItem, addNextIndex, Callback.onHeap, finishItem, stackPop,
      returns_bind, returns_update, returns_pure]
    refine ⟨(), { u' with heap := u'.heap.setValue container _ },
      ⟨_, u', returns_zval cell', ?_⟩, (), _, ⟨(), _, rfl,
        returns_countItem (built.stack.trans top)⟩, trivial, rfl⟩
    simp only [appended, returns_update]
  · have inner : ∀ a, (a = obj ∨ Between u.heap.nextAddr u'.heap.nextAddr a) →
        Between lo u'.heap.nextAddr a := by
      rintro a (rfl | between)
      · exact ⟨place ▸ filling.le, built.less⟩
      · exact ⟨filling.le.trans between.1, between.2⟩
    have added : DenoteEntries
        (u'.heap.setValue container
          (.array ⟨buckets ++ [(.index done.length, obj)], done.length + 1⟩))
        (Between lo u'.heap.nextAddr) (buckets ++ [(.index done.length, obj)])
        (indexed 0 done ++ [(.index done.length, w)]) := DenoteEntries.add filled
      (fun a between => by
        rw [zvals_setValue, if_neg (filling.ne between)]
        exact built.kept a between.2 (Nat.ne_of_lt (place ▸ between.2))) built.grows built.denotes
      (fun a inside => by
        rw [zvals_setValue, if_neg (filling.ne (inner a inside))]) inner
    refine ⟨stored.type, stored.fresh, filling.below, filling.le.trans built.grows,
      buckets ++ [(.index done.length, obj)], ?_, ?_⟩
    · simp only
      rw [zvals_setValue, if_pos rfl, cell']
      simp
    · rw [indexed_append, Nat.zero_add]
      exact added

theorem makes_items {ms : List Msg} {ws : List PhpValue}
    (each : List.Forall₂ (Makes config) ms ws) :
    ∀ {u : UnserializeData} {lo : Nat} {container : Addr} (done : List PhpValue) {rest : List Nat},
      Filling lo container done.length (indexed 0 done) u → u.stack = opened ms.length rest →
      rest.length + (itemsDepth ms + 1) ≤ embedStackSize → done.length + ms.length ≤ 2 ^ 32 →
      ∃ u', Prog.Returns (evalItems (unserializeCallbacks config) ms container) u container u' ∧
        Extends container u u' ∧ u'.stack = rest ∧
        Filling lo container (done ++ ws).length (indexed 0 (done ++ ws)) u' := by
  induction each with
  | nil =>
    intro u lo container done rest filling top room small
    refine ⟨u, Prog.returns_pure.mpr ⟨rfl, rfl⟩,
      ⟨rfl, filling.type, filling.fresh, le_refl _, fun _ _ _ => rfl⟩, top, ?_⟩
    rwa [List.append_nil]
  | @cons m w ms ws makes _ ih =>
    intro u lo container done rest filling top room small
    simp only [itemsDepth] at room
    simp only [List.length_cons] at small
    have counted : u.stack = (ms.length + 1) :: rest := top
    have isOpen : u.stack ≠ [] := by rw [counted]; exact List.cons_ne_nil _ _
    obtain ⟨obj, u₁, run₁, built⟩ := makes u (filling.ready isOpen)
      (by rw [counted, List.length_cons]; omega)
    obtain ⟨u₂, run₂, extends₂, stack₂, filling₂⟩ :=
      returns_unserializeArrayItem filling counted (by omega) built
    obtain ⟨u₃, run₃, extends₃, stack₃, filling₃⟩ := ih _ filling₂ stack₂ (by omega)
      (by rw [List.length_append, List.length_singleton]; omega)
    refine ⟨u₃, ?_, extends₂.trans extends₃, stack₃, ?_⟩
    · simp only [evalItems, returns_bind]
      exact ⟨obj, u₁, run₁, container, u₂, run₂, run₃⟩
    · rwa [List.append_assoc] at filling₃

theorem Filling.denotes {lo next : Nat}
    {n : Nat} (filling : Filling lo container next entries u) (le : n ≤ lo) :
    Denotes u.heap (fun a => a = container ∨ Between n u.heap.nextAddr a) container
      (.array next entries) := by
  obtain ⟨buckets, cell, filled⟩ := filling.filled
  simp only [Denotes]
  refine ⟨.inl trivial, by rw [Heap.isRef, cell]; rfl, buckets, by rw [Heap.value, cell]; rfl, ?_⟩
  exact DenoteEntries.frame (fun _ _ => rfl)
    (fun a between => .inr ⟨le.trans between.1, between.2⟩) entries filled

theorem Opened.filling {count : Nat} {obj : Addr} (begun : Opened count (.array .empty) u u')
    (place : obj = home u) : Filling u'.heap.nextAddr obj 0 [] u' := by
  subst place
  refine ⟨begun.type, begun.fresh, ?_, le_refl _, [], begun.cell, rfl⟩
  exact begun.fresh _ (by simp [Heap.live, begun.cell])

theorem makes_array {w : CountWidth} {ms : List Msg} {ws : List PhpValue}
    (each : List.Forall₂ (Makes config) ms ws) (small : ms.length < 2 ^ 32) :
    Makes config (.array w ms) (.array ws.length (indexed 0 ws)) := by
  intro u ready room
  simp only [Msg.depth] at room
  obtain ⟨u₁, run₁, opened₁⟩ := returns_unserializeArray ms.length ready (by omega)
  obtain ⟨u₂, run₂, extends₂, stack₂, filling⟩ :=
    makes_items each [] (opened₁.filling rfl) opened₁.stack (by omega)
      (by simp only [List.length_nil]; omega)
  refine ⟨_, u₂, ?_, { opened₁.toExtends.trans extends₂ with
    home := rfl
    stack := stack₂
    denotes := filling.denotes opened₁.grows }⟩
  simp only [Msg.eval, returns_bind]
  exact ⟨_, u₁, run₁, run₂⟩

def MakesKey (m : Msg) (key : HashKey) : Prop :=
  ∃ x : Scalar, m = .scalar x ∧ x.value.toZValue.isNull = false ∧
    ((∃ l, x.value.toZValue = .long l ∧ key = .index l) ∨
      ∃ s, x.value.toZValue = .string s ∧ handleNumeric .eight s = none ∧ key = .string s)

theorem makesKey_keyMsg {str8 : Bool} {key : HashKey} (valid : KeyValid key) :
    MakesKey (keyMsg str8 key) key := by
  cases key with
  | index h =>
    have value := (packLong_eq valid).value
    exact ⟨_, rfl, by rw [value]; rfl, .inl ⟨h, value, rfl⟩⟩
  | string s => exact ⟨_, rfl, rfl, .inr ⟨s, rfl, valid.2, rfl⟩⟩

theorem ptrDtor_of_scalar {h : Heap} {a : Addr} {v : ZValue} (cell : h.zvals a = some ⟨v, 1, false⟩)
    (scalar : (∃ l, v = .long l) ∨ ∃ s, v = .string s) : h.ptrDtor a = h.setZval a none := by
  rw [Heap.ptrDtor, Heap.ptrDtorDepth, cell]
  rcases scalar with ⟨l, rfl⟩ | ⟨s, rfl⟩ <;> simp [Heap.dtorValue]

def tableValue (table : HashTable Addr) (started : Bool) : ZValue :=
  if started then .array table else .null

structure Pairing (lo : Nat) (container : Addr) (started : Bool) (next : Nat)
    (entries : List (HashKey × PhpValue)) (u : UnserializeData) : Prop where
  type : u.type = .none
  fresh : u.heap.Fresh
  below : container < lo
  le : lo ≤ u.heap.nextAddr
  filled : ∃ buckets, (started = false → buckets = [] ∧ next = 0) ∧
    u.heap.zvals container = some ⟨tableValue ⟨buckets, next⟩ started, 1, false⟩ ∧
    DenoteEntries u.heap (Between lo u.heap.nextAddr) buckets entries

theorem Pairing.ready {lo next : Nat} {container : Addr} {started : Bool}
    {entries : List (HashKey × PhpValue)} (pairing : Pairing lo container started next entries u)
    (opened : u.stack ≠ []) : Settled u :=
  ⟨pairing.type, pairing.fresh, fun closed => absurd closed opened⟩

def storedHeap (h : Heap) (container key : Addr) (table : HashTable Addr) : Heap :=
  (h.setValue container (.array table)).setZval key none

theorem zvals_storedHeap {h : Heap} {container key a : Addr} {table : HashTable Addr} :
    (storedHeap h container key table).zvals a = if a = key then none
      else if a = container then (h.zvals container).map fun z => { z with value := .array table }
      else h.zvals a := by
  rw [storedHeap, Heap.zvals_setZval, zvals_setValue]

theorem returns_initContainer {container : Addr} (table : HashTable Addr) {started : Bool}
    (empty : started = false → table = .empty)
    (cell : u.heap.zvals container = some ⟨tableValue table started, 1, false⟩) :
    Prog.Returns (initContainer container) u ()
      { u with heap := u.heap.setValue container (.array table) } := by
  simp only [initContainer, Callback.onHeap, returns_bind]
  refine ⟨⟨tableValue table started, 1, false⟩, u, returns_zval cell, ?_⟩
  cases started with
  | false =>
    rw [empty rfl]
    exact Prog.returns_update.mpr rfl
  | true =>
    refine Prog.returns_pure.mpr ⟨rfl, ?_⟩
    have same : u.heap.setValue container (.array table) = u.heap := by
      simp only [tableValue, if_true] at cell
      simp only [Heap.setValue, Heap.modifyZval, Heap.setZval, cell, Option.map_some]
      rw [← cell, Function.update_eq_self]
    rw [same]

theorem returns_storeItem (config : Config) (val : Addr) {key : Addr}
    {table : HashTable Addr} {k : HashKey} {v : ZValue} (different : key ≠ container)
    (cell : u.heap.zvals container = some ⟨.array table, 1, false⟩)
    (keyCell : u.heap.zvals key = some ⟨v, 1, false⟩) (reads : (∃ l, v = .long l ∧ k = .index l) ∨
      ∃ s, v = .string s ∧ handleNumeric .eight s = none ∧ k = .string s)
    (absent : table.buckets.lookup k = none) :
    Prog.Returns (storeItem config container key val) u ()
      { u with heap := storedHeap u.heap container key (table.update .eight k val) } := by
  have value : u.heap.value container = some (.array table) := by
    rw [Heap.value, cell]
    rfl
  have updated : Prog.Returns (updateItem container k val) u ()
      { u with heap := u.heap.setValue container (.array (table.update .eight k val)) } := by
    simp only [updateItem, hashOf, HashTable.find, releaseDisplaced, Callback.onHeap, setHashOf,
      returns_bind, returns_read, returns_update]
    refine ⟨u, u, ⟨rfl, rfl⟩, (), u, ?_, ?_⟩
    · rw [value]
      simp only [absent]
      exact Prog.returns_pure.mpr ⟨rfl, rfl⟩
    · simp only [value]
  have scalar : (∃ l, v = .long l) ∨ ∃ s, v = .string s := by
    rcases reads with ⟨l, same, -⟩ | ⟨s, same, -⟩
    · exact .inl ⟨l, same⟩
    · exact .inr ⟨s, same⟩
  have keyCell' : (u.heap.setValue container (.array (table.update .eight k val))).zvals key =
      some ⟨v, 1, false⟩ := by
    rw [zvals_setValue, if_neg different, keyCell]
  have released : Prog.Returns (Callback.ptrDtor key)
      { u with heap := u.heap.setValue container (.array (table.update .eight k val)) } ()
      { u with heap := storedHeap u.heap container key (table.update .eight k val) } := by
    simp only [Callback.ptrDtor, Callback.onZval, Callback.onHeap, returns_bind,
      returns_update]
    refine ⟨_, _, returns_zval keyCell', ?_⟩
    simp only [ptrDtor_of_scalar keyCell' scalar, storedHeap]
  simp only [storeItem, returns_bind]
  refine ⟨⟨v, 1, false⟩, u, returns_zval keyCell, ?_⟩
  rcases reads with ⟨l, rfl, rfl⟩ | ⟨s, rfl, plain, rfl⟩
  · exact Prog.returns_bind.mpr ⟨(), _, updated, released⟩
  · simp only [symtableKey_of_not_numeric plain]
    exact Prog.returns_bind.mpr ⟨(), _, updated, released⟩

theorem returns_wakeupWhenComplete (config : Config) {table : HashTable Addr}
    {n : Nat} (value : u.heap.value container = some (.array table))
    (top : u.stack = (n + 1) :: rest) : Prog.Returns (wakeupWhenComplete config container) u ()
      { u with dtors := popDtor 2 u.dtors, stack := opened n rest } := by
  have asleep : hasWakeup u.heap container = false := by
    simp only [hasWakeup, value]
  simp only [wakeupWhenComplete, stackPop, returns_bind, returns_update,
    returns_read]
  refine ⟨(), _, rfl, _, _, ⟨rfl, rfl⟩, (), _, returns_countItem top, ?_⟩
  rw [if_neg (by simp [asleep])]
  exact Prog.returns_pure.mpr ⟨rfl, rfl⟩

theorem returns_unserializeMapItem (phpOnly : config.phpOnly = true) {lo n next : Nat}
    {started : Bool} {obj : Addr} {k : HashKey} {z : ZValue} {w : PhpValue}
    (pairing : Pairing lo container started next entries u) (top : u.stack = (n + 1) :: rest)
    (absent : k ∉ entries.map Prod.fst) (notNull : z.isNull = false)
    (reads : (∃ l, z = .long l ∧ k = .index l) ∨
      ∃ s, z = .string s ∧ handleNumeric .eight s = none ∧ k = .string s)
    (keyBuilt : BuiltScalar u u' z) (built : Built u' obj u'' w) :
    ∃ u₃, Prog.Returns (unserializeMapItem config container (home u) obj) u'' container u₃ ∧
      Extends container u u₃ ∧ u₃.stack = opened n rest ∧
      Pairing lo container true (HashTable.bump .eight next k) (entries ++ [(k, w)]) u₃ := by
  have isOpen : u.stack ≠ [] := by rw [top]; exact List.cons_ne_nil _ _
  have isOpen' : u'.stack ≠ [] := by rw [keyBuilt.stack]; exact isOpen
  have place := home_of_open isOpen
  have place' : obj = u'.heap.nextAddr := built.home.trans (home_of_open isOpen')
  have keyCell := keyBuilt.cell
  rw [place] at keyCell ⊢
  have keyLess : u.heap.nextAddr < u'.heap.nextAddr :=
    keyBuilt.fresh _ (by simp [Heap.live, keyCell])
  obtain ⟨buckets, unstarted, cell, filled⟩ := pairing.filled
  have older : container < u.heap.nextAddr := Nat.lt_of_lt_of_le pairing.below pairing.le
  have different : u.heap.nextAddr ≠ container := Nat.ne_of_gt older
  -- what is older than the key is as it was before it
  have kept : ∀ a, a < u.heap.nextAddr → u''.heap.zvals a = u.heap.zvals a := by
    intro a less
    have older := Nat.lt_trans less keyLess
    rw [built.kept a older (Nat.ne_of_lt (place' ▸ older)),
      keyBuilt.kept a less (Nat.ne_of_lt (place.symm ▸ less))]
  have cell₂ : u''.heap.zvals container = some ⟨tableValue ⟨buckets, next⟩ started, 1, false⟩ := by
    rw [kept container older, cell]
  have keyCell₂ : u''.heap.zvals u.heap.nextAddr = some ⟨z, 1, false⟩ := by
    rw [built.kept _ keyLess (Nat.ne_of_lt (place' ▸ keyLess)), keyCell]
  have unbound : buckets.lookup k = none := by
    rw [HashTable.lookup_eq_none_iff, filled.keys]
    exact absent
  have updated : HashTable.update .eight ⟨buckets, next⟩ k obj =
      ⟨buckets ++ [(k, obj)], HashTable.bump .eight next k⟩ := by
    rw [HashTable.update, HashTable.store_of_notMem (HashTable.lookup_eq_none_iff.mp unbound)]
  have init := returns_initContainer ⟨buckets, next⟩ (fun off => by
    obtain ⟨rfl, rfl⟩ := unstarted off
    rfl) cell₂
  have initCell : (u''.heap.setValue container (.array ⟨buckets, next⟩)).zvals container =
      some ⟨.array ⟨buckets, next⟩, 1, false⟩ := by
    rw [zvals_setValue, if_pos rfl, cell₂]
    rfl
  have store := returns_storeItem config obj
    (u := { u'' with heap := u''.heap.setValue container (.array ⟨buckets, next⟩) }) different
    initCell (by simp only; rw [zvals_setValue, if_neg different, keyCell₂]) reads unbound
  rw [updated] at store
  generalize heap : storedHeap (u''.heap.setValue container (.array ⟨buckets, next⟩)) container
    u.heap.nextAddr ⟨buckets ++ [(k, obj)], HashTable.bump .eight next k⟩ = H at store
  have cells : ∀ a, a ≠ u.heap.nextAddr → a ≠ container → H.zvals a = u''.heap.zvals a := by
    intro a notKey other
    rw [← heap, zvals_storedHeap, if_neg notKey, if_neg other, zvals_setValue, if_neg other]
  have cellH : H.zvals container =
      some ⟨.array ⟨buckets ++ [(k, obj)], HashTable.bump .eight next k⟩, 1, false⟩ := by
    rw [← heap, zvals_storedHeap, if_neg different.symm, if_pos rfl, initCell]
    rfl
  have nextH : H.nextAddr = u''.heap.nextAddr := by
    rw [← heap]
    rfl
  have freshH : H.Fresh := by
    rw [← heap]
    exact ((Heap.within_setValue.trans Heap.within_setValue).trans
      (Heap.within_setZval fun none => by cases none)).fresh built.fresh
  have grows : u.heap.nextAddr ≤ u''.heap.nextAddr := keyBuilt.grows.trans built.grows
  have valueH : H.value container =
      some (.array ⟨buckets ++ [(k, obj)], HashTable.bump .eight next k⟩) := by
    rw [Heap.value, cellH]
    rfl
  have wake := returns_wakeupWhenComplete config
    (u := { u'' with heap := H }) valueH
    (built.stack.trans (keyBuilt.stack.trans top))
  refine ⟨{ u'' with heap := H, dtors := popDtor 2 u''.dtors, stack := opened n rest }, ?_,
    ⟨built.retval.trans keyBuilt.retval, built.type, freshH, nextH ▸ grows, fun a less other => ?_⟩,
    rfl, ⟨built.type, freshH, pairing.below, nextH ▸ pairing.le.trans grows,
      buckets ++ [(k, obj)], by rintro ⟨⟩, cellH, ?_⟩⟩
  · simp only [unserializeMapItem, phpOnly, if_true, returns_bind, Prog.returns_announce,
      returns_read]
    refine ⟨(), u'', rfl, _, u'', returns_zval keyCell₂, u'', u'', ⟨rfl, rfl⟩, ?_⟩
    simp only [notNull, Bool.false_eq_true, if_false, built.type, mapItemStore,
      returns_bind, returns_pure]
    exact ⟨(), _, init, (), _, store, (), _, wake, trivial, by simp only [built.type]⟩
  · rw [cells a (Nat.ne_of_lt less) other, kept a less]
  · -- the zval of the key lies between those of the table and those of the value
    have inner : ∀ a, (a = obj ∨ Between u'.heap.nextAddr u''.heap.nextAddr a) →
        u'.heap.nextAddr ≤ a ∧ a < u''.heap.nextAddr := by
      rintro a (rfl | between)
      · exact ⟨Nat.le_of_eq place'.symm, built.less⟩
      · exact between
    refine DenoteEntries.add filled (fun a between => ?_) (nextH ▸ grows) built.denotes
      (fun a inside => ?_) fun a inside => ?_
    · rw [cells a (Nat.ne_of_lt between.2)
        (Nat.ne_of_gt (Nat.lt_of_lt_of_le pairing.below between.1)), kept a between.2]
    · have after := (inner a inside).1
      exact cells a (Nat.ne_of_gt (Nat.lt_of_lt_of_le keyLess after))
        (Nat.ne_of_gt (Nat.lt_of_lt_of_le (Nat.lt_trans older keyLess) after))
    · exact ⟨pairing.le.trans (keyBuilt.grows.trans (inner a inside).1), nextH ▸ (inner a inside).2⟩

def MakesPair (config : Config) (pair : Msg × Msg) (entry : HashKey × PhpValue) : Prop :=
  MakesKey pair.1 entry.1 ∧ Makes config pair.2 entry.2

def nextAfter (next : Nat) (entries : List (HashKey × PhpValue)) : Nat :=
  entries.foldl (fun next entry => HashTable.bump .eight next entry.1) next

theorem makes_key (config : Config) {m : Msg} {k : HashKey} (makes : MakesKey m k)
    (ready : Settled u) (isOpen : u.stack ≠ []) :
    ∃ z u₁, Prog.Returns (m.eval (unserializeCallbacks config)) u (home u) u₁ ∧
      BuiltScalar u u₁ z ∧ Settled u₁ ∧ z.isNull = false ∧ ((∃ l, z = .long l ∧ k = .index l) ∨
        ∃ s, z = .string s ∧ handleNumeric .eight s = none ∧ k = .string s) := by
  obtain ⟨x, rfl, notNull, reads⟩ := makes
  obtain ⟨u₁, run₁, built⟩ := returns_unserializeValue ready x.value
  refine ⟨_, u₁, run₁, built, ⟨built.type, built.fresh, fun closed => ?_⟩, notNull, reads⟩
  exact absurd (built.stack.symm.trans closed) isOpen

theorem makes_pair (phpOnly : config.phpOnly = true) {pair : Msg × Msg}
    {entry : HashKey × PhpValue} (makes : MakesPair config pair entry) {lo n next : Nat}
    {started : Bool}
    (pairing : Pairing lo container started next entries u) (top : u.stack = (n + 1) :: rest)
    (absent : entry.1 ∉ entries.map Prod.fst)
    (room : rest.length + (pair.2.depth + 1) ≤ embedStackSize) :
    ∃ key u₁ val u₂ u₃, Prog.Returns (pair.1.eval (unserializeCallbacks config)) u key u₁ ∧
      Prog.Returns (pair.2.eval (unserializeCallbacks config)) u₁ val u₂ ∧
      Prog.Returns (unserializeMapItem config container key val) u₂ container u₃ ∧
      Extends container u u₃ ∧ u₃.stack = opened n rest ∧
      Pairing lo container true (HashTable.bump .eight next entry.1) (entries ++ [entry]) u₃ := by
  have isOpen : u.stack ≠ [] := by rw [top]; exact List.cons_ne_nil _ _
  obtain ⟨z, u₁, run₁, keyBuilt, ready₁, notNull, reads⟩ :=
    makes_key config makes.1 (pairing.ready isOpen) isOpen
  obtain ⟨val, u₂, run₂, built⟩ := makes.2 u₁ ready₁
    (by rw [keyBuilt.stack, top, List.length_cons]; omega)
  obtain ⟨u₃, run₃, extends₃, stack₃, pairing₃⟩ :=
    returns_unserializeMapItem phpOnly pairing top absent notNull reads keyBuilt built
  exact ⟨_, u₁, val, u₂, u₃, run₁, run₂, run₃, extends₃, stack₃, pairing₃⟩

theorem makes_pairs (phpOnly : config.phpOnly = true) {pairs : List (Msg × Msg)}
     (each : List.Forall₂ (MakesPair config) pairs entries) :
    ∀ {u : UnserializeData} {lo next : Nat} {container : Addr} {started : Bool}
      {done : List (HashKey × PhpValue)} {rest : List Nat},
      Pairing lo container started next done u → started = true ∨ pairs ≠ [] →
      u.stack = opened pairs.length rest → rest.length + (pairsDepth pairs + 1) ≤ embedStackSize →
      ((done ++ entries).map Prod.fst).Nodup →
      ∃ u', Prog.Returns (evalPairs (unserializeCallbacks config) pairs container) u container u' ∧
        Extends container u u' ∧ u'.stack = rest ∧
        Pairing lo container true (nextAfter next entries) (done ++ entries) u' := by
  induction each with
  | nil =>
    intro u lo next container started done rest pairing begun top room distinct
    obtain rfl : started = true := begun.resolve_right fun none => none rfl
    refine ⟨u, Prog.returns_pure.mpr ⟨rfl, rfl⟩,
      ⟨rfl, pairing.type, pairing.fresh, le_refl _, fun _ _ _ => rfl⟩, top, ?_⟩
    rwa [List.append_nil]
  | @cons pair entry pairs entries makes _ ih =>
    intro u lo next container started done rest pairing begun top room distinct
    obtain ⟨k, m⟩ := pair
    simp only [pairsDepth] at room
    have absent : entry.1 ∉ done.map Prod.fst := by
      rw [List.map_append, List.nodup_append] at distinct
      exact fun mem => distinct.2.2 _ mem _ (.head _) rfl
    obtain ⟨key, u₁, val, u₂, u₃, run₁, run₂, run₃, extends₃, stack₃, pairing₃⟩ :=
      makes_pair phpOnly makes pairing (n := pairs.length) top absent (by simp only; omega)
    obtain ⟨u₄, run₄, extends₄, stack₄, pairing₄⟩ := ih pairing₃ (.inl rfl) stack₃ (by omega)
      (by rwa [List.append_assoc])
    refine ⟨u₄, ?_, extends₃.trans extends₄, stack₄, ?_⟩
    · simp only [evalPairs, returns_bind]
      exact ⟨key, u₁, run₁, val, u₂, run₂, container, u₃, run₃, run₄⟩
    · rwa [List.append_assoc] at pairing₄

theorem Opened.pairing {count : Nat} {obj : Addr} (begun : Opened count .null u u')
    (place : obj = home u) : Pairing u'.heap.nextAddr obj false 0 [] u' := by
  subst place
  exact ⟨begun.type, begun.fresh, begun.fresh _ (by simp [Heap.live, begun.cell]),
    le_refl _, [], fun _ => ⟨rfl, rfl⟩, begun.cell, rfl⟩

theorem makes_map (phpOnly : config.phpOnly = true) {w : CountWidth} {pairs : List (Msg × Msg)}
     (each : List.Forall₂ (MakesPair config) pairs entries)
    (nonempty : pairs ≠ []) (distinct : (entries.map Prod.fst).Nodup) :
    Makes config (.map w pairs) (.array (nextAfter 0 entries) entries) := by
  intro u ready room
  simp only [Msg.depth] at room
  have some : pairs.length ≠ 0 := fun none => nonempty (List.length_eq_zero_iff.mp none)
  obtain ⟨u₁, run₁, opened₁⟩ := returns_unserializeMap config pairs.length ready
    (by omega) some
  have pairing := opened₁.pairing rfl
  obtain ⟨u₂, run₂, extends₂, stack₂, pairing₂⟩ :=
    makes_pairs phpOnly each pairing (.inr nonempty) opened₁.stack (by omega)
      (by simpa using distinct)
  obtain ⟨buckets, -, cell, filled⟩ := pairing₂.filled
  have filling : Filling u₁.heap.nextAddr (home u) (nextAfter 0 entries) entries u₂ :=
    ⟨pairing₂.type, pairing₂.fresh, pairing₂.below, pairing₂.le, buckets, cell, filled⟩
  refine ⟨_, u₂, ?_, { opened₁.toExtends.trans extends₂ with
    home := rfl
    stack := stack₂
    denotes := filling.denotes opened₁.grows }⟩
  simp only [Msg.eval, returns_bind]
  exact ⟨_, u₁, run₁, run₂⟩

/-! ## The value that comes back -/

mutual

/-- What the decoder makes of what the encoder writes for a value. -/
def decoded : PhpValue → PhpValue
  | .array next entries =>
    if entries.length = 0 then .array 0 []
    else if asMap next entries then
      .array (nextAfter 0 (decodedEntries entries)) (decodedEntries entries)
    else
      .array entries.length (indexed 0 ((List.range entries.length).map fun i =>
        ((decodedEntries entries).lookup (.index i)).getD .null))
  | .null => .null
  | .bool b => .bool b
  | .long l => .long l
  | .double bits => .double bits
  | .string s => .string s

def decodedEntries : List (HashKey × PhpValue) → List (HashKey × PhpValue)
  | [] => []
  | (key, v) :: rest => (key, decoded v) :: decodedEntries rest

end

theorem decodedEntries_eq (entries : List (HashKey × PhpValue)) :
    decodedEntries entries = entries.map fun entry => (entry.1, decoded entry.2) := by
  induction entries with
  | nil => simp only [decodedEntries, List.map_nil]
  | cons entry rest ih => simp only [decodedEntries, ih, List.map_cons]

theorem keys_decodedEntries (entries : List (HashKey × PhpValue)) :
    (decodedEntries entries).map Prod.fst = entries.map Prod.fst := by
  rw [decodedEntries_eq, List.map_map]
  rfl

theorem decoded_empty {next : Nat} : decoded (.array next []) = .array 0 [] := by
  simp [decoded]

theorem decoded_map {next : Nat} {entries : List (HashKey × PhpValue)} (nonempty : entries ≠ [])
    (isMap : asMap next entries = true) : decoded (.array next entries) =
      .array (nextAfter 0 (decodedEntries entries)) (decodedEntries entries) := by
  have some : entries.length ≠ 0 := fun none => nonempty (List.length_eq_zero_iff.mp none)
  simp only [decoded, some, if_false, isMap, if_true]

theorem decoded_list {next : Nat} {entries : List (HashKey × PhpValue)} (nonempty : entries ≠ [])
    (isList : asMap next entries = false) : decoded (.array next entries) =
      .array entries.length (indexed 0 ((listItems entries).map decoded)) := by
  have some : entries.length ≠ 0 := fun none => nonempty (List.length_eq_zero_iff.mp none)
  simp only [decoded, some, if_false, isList, Bool.false_eq_true, decodedEntries_eq, lookup_map,
    listItems, List.map_map]
  refine congrArg (fun ws => PhpValue.array _ (indexed 0 ws)) (List.map_congr_left fun i _ => ?_)
  simp only [Function.comp_apply]
  cases entries.lookup (.index i) with
  | none => simp only [Option.map_none, Option.getD_none, decoded]
  | some v => rfl

mutual

/-- **The decoder makes of the object of a value the value `decoded`.** -/
theorem makes_toMsg (phpOnly : config.phpOnly = true) (str8 : Bool) : (v : PhpValue) → Valid v →
    Makes config (toMsg str8 v) (decoded v)
  | .null, _ => by simp only [toMsg, decoded]; exact makes_scalar rfl
  | .bool b, _ => by cases b <;> simp only [toMsg, decoded] <;> exact makes_scalar rfl
  | .long l, valid => by
    simp only [toMsg, decoded]
    exact makes_scalar (by rw [(packLong_eq valid).value]; rfl)
  | .double bits, _ => by simp only [toMsg, decoded]; exact makes_scalar rfl
  | .string s, _ => by simp only [toMsg, decoded]; exact makes_scalar rfl
  | .array next entries, valid => by
    simp only [Valid] at valid
    obtain ⟨small, distinct, valid⟩ := valid
    have each := makes_toMsgs phpOnly str8 entries valid
    by_cases empty : entries = []
    · rw [empty, toMsg_empty, decoded_empty]
      exact makes_array .nil (by decide)
    cases isMap : asMap next entries with
    | true =>
      rw [toMsg_map empty isMap, decoded_map empty isMap]
      refine makes_map phpOnly ?_ (by simpa using empty) (by rwa [keys_decodedEntries])
      rw [decodedEntries_eq, List.forall₂_map_left_iff, List.forall₂_map_right_iff,
        List.forall₂_same]
      exact each
    | false =>
      rw [toMsg_list empty isMap, decoded_list empty isMap]
      have length : ((listItems entries).map decoded).length = entries.length := by
        simp [listItems]
      rw [← length]
      refine makes_array ?_ (by simpa [listItems] using small)
      rw [List.forall₂_map_left_iff, List.forall₂_map_right_iff, List.forall₂_same]
      intro v mem
      rcases mem_listItems mem with rfl | ⟨key, stored⟩
      · rw [toMsg_null, decoded]
        exact makes_scalar rfl
      · exact (each _ stored).2

theorem makes_toMsgs (phpOnly : config.phpOnly = true) (str8 : Bool) :
    (entries : List (HashKey × PhpValue)) → EntriesValid entries → ∀ entry ∈ entries,
      MakesPair config (keyMsg str8 entry.1, toMsg str8 entry.2) (entry.1, decoded entry.2)
  | [], _, _, mem => by cases mem
  | (key, v) :: rest, valid, entry, mem => by
    rcases List.mem_cons.mp mem with rfl | mem
    · exact ⟨makesKey_keyMsg valid.1, makes_toMsg phpOnly str8 v valid.2.1⟩
    · exact makes_toMsgs phpOnly str8 rest valid.2.2 entry mem

end

end PhpExts.Msgpack.RoundTrip
