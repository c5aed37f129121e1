import Mathlib

/-!
# The ring buffer of Swoole

Regions are cut from an arena one behind the other.  `free` only clears a flag in
the region's header; `alloc` first collects the freed items at the tail of the ring,
in order.  At the end of the arena a free padding item is written and the head goes
back to the start; `status` says that the head has wrapped around and the tail has
not.

The functions of `RingBuffer.c` compute in `uint32_t`, and so they do here.  The
ring is read as the list of the items not yet collected: `InOrder` says how they lie
in the arena, in the two cases of `status`.
-/

namespace PhpExts.Swoole.RingBuffer

open Function (update update_of_ne update_self)
open List (filter_append length_append length_cons)

variable {items : List Nat}

/-- Addition and subtraction in `uint32_t`. -/
def add32 (x y : Nat) : Nat := (x + y) % 2 ^ 32

def sub32 (x y : Nat) : Nat := (x + 2 ^ 32 - y) % 2 ^ 32

/-- `swRingBuffer_item`, the header in front of a region. -/
structure Item where
  lock : Bool
  index : Nat
  length : Nat
  deriving DecidableEq

/-- `sizeof(swRingBuffer_item)`. -/
def headerSize : Nat := 8

/-- `swRingBuffer`, with the headers in the arena by their offsets. -/
structure Ring where
  size : Nat
  status : Bool
  allocOffset : Nat
  collectOffset : Nat
  allocCount : Nat
  freeCount : Nat
  memory : Nat → Item

/-- `swRingBuffer_new`, for an arena of `size` bytes. -/
def Ring.new (size : Nat) (memory : Nat → Item) : Ring := ⟨size, false, 0, 0, 0, 0, memory⟩

/-- Where the collector goes from an item: over it, or to the start of the arena with
`status` cleared when no header fits behind it. -/
def Ring.behind (ring : Ring) (offset : Nat) (status : Bool) : Nat × Bool :=
  let next := add32 offset (add32 (ring.memory offset).length headerSize)
  if ring.size < add32 next headerSize ∨ ring.size ≤ next then (0, false) else (next, status)

/-- The loop of `swRingBuffer_collect`, with `count` rounds left. -/
def collectLoop : Nat → Ring → Ring
  | 0, ring => ring
  | count + 1, ring =>
    if (ring.memory ring.collectOffset).lock then ring
    else
      let next := ring.behind ring.collectOffset ring.status
      collectLoop count { ring with
        collectOffset := next.1
        status := next.2
        freeCount := sub32 ring.freeCount 1 }

def swRingBufferCollect (ring : Ring) : Ring := collectLoop ring.freeCount ring

/-- The head goes to the start of the arena; a free item covers what is left behind
it, if a header fits there. -/
def wrap (ring : Ring) : Ring :=
  let skip := sub32 ring.size ring.allocOffset
  let padded : Ring :=
    if headerSize ≤ skip then
      { ring with
        memory := update ring.memory ring.allocOffset
          ⟨false, (ring.memory ring.allocOffset).index, sub32 skip headerSize⟩
        freeCount := add32 ring.freeCount 1 }
    else ring
  { padded with allocOffset := 0, status := true }

/-- The part of `swRingBuffer_alloc` that makes room: the ring and its capacity. -/
def makeRoom (ring : Ring) (allocSize : Nat) : Ring × Nat :=
  if ring.status then (ring, sub32 ring.collectOffset ring.allocOffset)
  else if sub32 ring.size headerSize ≤ add32 ring.allocOffset allocSize then
    let wrapped := wrap ring
    (wrapped, sub32 wrapped.collectOffset wrapped.allocOffset)
  else (ring, sub32 ring.size ring.allocOffset)

def place (ring : Ring) (size allocSize : Nat) : Ring :=
  { ring with
    memory := update ring.memory ring.allocOffset ⟨true, ring.allocCount % 2 ^ 16, size⟩
    allocOffset := add32 ring.allocOffset allocSize
    allocCount := add32 ring.allocCount 1 }

/-- `swRingBuffer_alloc`: the ring, and the offset of the region in the arena. -/
def swRingBufferAlloc (ring : Ring) (size : Nat) : Ring × Option Nat :=
  let allocSize := add32 size headerSize
  let collected := if 0 < ring.freeCount then swRingBufferCollect ring else ring
  let (ready, capacity) := makeRoom collected allocSize
  if capacity < allocSize then (ready, none)
  else (place ready size allocSize, some (ready.allocOffset + headerSize))

def swRingBufferFree (ring : Ring) (ptr : Nat) : Ring :=
  let offset := ptr - headerSize
  let item := ring.memory offset
  let memory :=
    if item.lock then update ring.memory offset { item with lock := false }
    else ring.memory
  { ring with memory := memory, freeCount := add32 ring.freeCount 1 }

/-! ## The items of a ring -/

/-- The offsets of the items from a position of the tail to the head, at most `fuel`
of them. -/
def itemsFrom (ring : Ring) : Nat → Nat × Bool → List Nat
  | 0, _ => []
  | fuel + 1, (offset, status) =>
    if offset = ring.allocOffset ∧ status = false then []
    else offset :: itemsFrom ring fuel (ring.behind offset status)

def uncollected (ring : Ring) : List Nat :=
  itemsFrom ring (ring.size + 1) (ring.collectOffset, ring.status)

def Ring.region (ring : Ring) (offset : Nat) : Nat × Nat :=
  (offset + headerSize, (ring.memory offset).length)

def freeItems (ring : Ring) (items : List Nat) : List Nat :=
  items.filter fun offset => !(ring.memory offset).lock

def usedItems (ring : Ring) (items : List Nat) : List Nat :=
  items.filter fun offset => (ring.memory offset).lock

/-! ## Items side by side -/

/-- Items that lie one behind the other from `start` to `stop`. -/
def Contiguous (memory : Nat → Item) : Nat → List Nat → Nat → Prop
  | start, [], stop => start = stop
  | start, offset :: items, stop =>
    offset = start ∧ Contiguous memory (start + (headerSize + (memory offset).length)) items stop

theorem Contiguous.le {memory : Nat → Item} {start stop : Nat} {items : List Nat}
    (contiguous : Contiguous memory start items stop) :
    start + headerSize * items.length ≤ stop := by
  induction items generalizing start with
  | nil => exact Nat.le_of_eq contiguous
  | cons offset items ih =>
    have rest := ih contiguous.2
    simp only [length_cons, headerSize] at rest ⊢
    omega

theorem Contiguous.bounds {memory : Nat → Item} {start stop : Nat} {items : List Nat}
    (contiguous : Contiguous memory start items stop) {offset : Nat} (mem : offset ∈ items) :
    start ≤ offset ∧ offset + (headerSize + (memory offset).length) ≤ stop := by
  induction items generalizing start with
  | nil => cases mem
  | cons first items ih =>
    obtain ⟨rfl, rest⟩ := contiguous
    rcases List.mem_cons.mp mem with rfl | later
    · exact ⟨le_rfl, (Nat.le_add_right _ _).trans rest.le⟩
    · have inside := ih rest later
      exact ⟨by omega, inside.2⟩

theorem Contiguous.append {memory : Nat → Item} {start middle stop : Nat} {items items' : List Nat}
    (contiguous : Contiguous memory start items middle)
    (contiguous' : Contiguous memory middle items' stop) :
    Contiguous memory start (items ++ items') stop := by
  induction items generalizing start with
  | nil => rwa [show start = middle from contiguous]
  | cons offset items ih => exact ⟨contiguous.1, ih contiguous.2⟩

theorem Contiguous.congr {memory memory' : Nat → Item} {start stop : Nat} {items : List Nat}
    (contiguous : Contiguous memory start items stop)
    (same : ∀ offset ∈ items, (memory' offset).length = (memory offset).length) :
    Contiguous memory' start items stop := by
  induction items generalizing start with
  | nil => exact contiguous
  | cons offset items ih =>
    refine ⟨contiguous.1, ?_⟩
    rw [same offset (by simp)]
    exact ih contiguous.2 fun o mem => same o (by simp [mem])

def Apart (memory : Nat → Item) (offset offset' : Nat) : Prop :=
  offset + (headerSize + (memory offset).length) ≤ offset' ∨
    offset' + (headerSize + (memory offset').length) ≤ offset

theorem Contiguous.apart {memory : Nat → Item} {start stop : Nat} {items : List Nat}
    (contiguous : Contiguous memory start items stop) : items.Pairwise (Apart memory) := by
  induction items generalizing start with
  | nil => exact .nil
  | cons offset items ih =>
    obtain ⟨rfl, rest⟩ := contiguous
    exact .cons (fun o mem => .inl (rest.bounds mem).1) (ih rest)

/-- The items in the arena.  With `status` clear they go from the tail to the head.
With `status` set they go from the tail to a padding item, which ends the arena, and
from the start to the head, which is not beyond the tail. -/
inductive InOrder (ring : Ring) : List Nat → Prop
  | level {items : List Nat} (clear : ring.status = false)
      (contiguous : Contiguous ring.memory ring.collectOffset items ring.allocOffset)
      (room : ring.allocOffset + headerSize < ring.size ∨ ring.allocOffset = 0) :
      InOrder ring items
  | wrapped {upper lower : List Nat} {padding : Nat} (set : ring.status = true)
      (contiguous : Contiguous ring.memory ring.collectOffset upper padding)
      (isFree : (ring.memory padding).lock = false)
      (toEnd : padding + (headerSize + (ring.memory padding).length) = ring.size)
      (room : padding + headerSize < ring.size ∨ padding = 0)
      (contiguous' : Contiguous ring.memory 0 lower ring.allocOffset)
      (behind : ring.allocOffset ≤ ring.collectOffset) :
      InOrder ring (upper ++ padding :: lower)

/-- Items in order, and as many free ones as `free_count` says. -/
structure Consistent (ring : Ring) (items : List Nat) : Prop where
  small : ring.size < 2 ^ 32
  inOrder : InOrder ring items
  counted : ring.freeCount = (freeItems ring items).length

theorem inOrder_bounds {ring : Ring} {items : List Nat} (inOrder : InOrder ring items)
    {offset : Nat} (mem : offset ∈ items) :
    offset + (headerSize + (ring.memory offset).length) ≤ ring.size := by
  cases inOrder with
  | level clear contiguous room =>
    have inside := contiguous.bounds mem
    rcases room with room | zero
    · omega
    · simp only [headerSize] at inside
      omega
  | wrapped set contiguous isFree toEnd room contiguous' behind =>
    have le := contiguous.le
    rcases List.mem_append.mp mem with upper | rest
    · have inside := contiguous.bounds upper
      omega
    · rcases List.mem_cons.mp rest with rfl | lower
      · exact toEnd.le
      · have inside := contiguous'.bounds lower
        omega

theorem inOrder_apart {ring : Ring} {items : List Nat} (inOrder : InOrder ring items) :
    items.Pairwise (Apart ring.memory) := by
  cases inOrder with
  | level clear contiguous room => exact contiguous.apart
  | @wrapped upper lower padding set contiguous isFree toEnd room contiguous' behind =>
    have whole : Contiguous ring.memory ring.collectOffset (upper ++ [padding]) ring.size :=
      contiguous.append ⟨rfl, toEnd⟩
    rw [← List.singleton_append, ← List.append_assoc, List.pairwise_append]
    refine ⟨whole.apart, contiguous'.apart, fun o high o' low => .inr ?_⟩
    exact (contiguous'.bounds low).2.trans (behind.trans (whole.bounds high).1)

theorem inOrder_nodup {ring : Ring} {items : List Nat} (inOrder : InOrder ring items) :
    items.Nodup := by
  refine (inOrder_apart inOrder).imp ?_
  rintro o _ (apart | apart) rfl <;> simp only [headerSize] at apart <;> omega

theorem inOrder_length {ring : Ring} {items : List Nat} (inOrder : InOrder ring items) :
    headerSize * items.length ≤ ring.size := by
  cases inOrder with
  | level clear contiguous room =>
    have le := contiguous.le
    rcases room with room | zero
    · omega
    · simp only [headerSize] at le ⊢
      omega
  | wrapped set contiguous isFree toEnd room contiguous' behind =>
    have le := contiguous.le
    have le' := contiguous'.le
    simp only [length_append, length_cons, headerSize] at le le' toEnd ⊢
    omega

/-! ## Walking from item to item -/

theorem add32_eq {x y : Nat} (small : x + y < 2 ^ 32) : add32 x y = x + y := Nat.mod_eq_of_lt small

theorem sub32_eq {x y : Nat} (le : y ≤ x) (small : x < 2 ^ 32) : sub32 x y = x - y := by
  unfold sub32
  omega

theorem next_eq {offset length : Nat} (small : offset + (headerSize + length) < 2 ^ 32) :
    add32 offset (add32 length headerSize) = offset + (headerSize + length) := by
  rw [add32_eq (x := length) (by omega), Nat.add_comm length, add32_eq small]

theorem behind_eq {ring : Ring} (small : ring.size < 2 ^ 32) {offset : Nat} (status : Bool)
    (room : offset + (headerSize + (ring.memory offset).length) + headerSize ≤ ring.size) :
    ring.behind offset status = (offset + (headerSize + (ring.memory offset).length), status) := by
  have positive : 0 < headerSize := Nat.succ_pos _
  simp only [Ring.behind]
  rw [next_eq (by omega), add32_eq (by omega)]
  exact if_neg (by omega)

theorem behind_end {ring : Ring} (small : ring.size < 2 ^ 32) {offset : Nat} (status : Bool)
    (toEnd : offset + (headerSize + (ring.memory offset).length) = ring.size) :
    ring.behind offset status = (0, false) := by
  simp only [Ring.behind]
  rw [next_eq (by omega), toEnd]
  exact if_pos (.inr le_rfl)

theorem itemsFrom_append {ring : Ring} (small : ring.size < 2 ^ 32) (status : Bool)
    {start stop fuel : Nat} {items : List Nat}
    (contiguous : Contiguous ring.memory start items stop)
    (room : items ≠ [] → stop + headerSize ≤ ring.size)
    (ahead : ∀ offset ∈ items, ¬ (offset = ring.allocOffset ∧ status = false)) :
    itemsFrom ring (fuel + items.length) (start, status) =
      items ++ itemsFrom ring fuel (stop, status) := by
  induction items generalizing start with
  | nil => rw [show start = stop from contiguous]; rfl
  | cons offset items ih =>
    obtain ⟨rfl, rest⟩ := contiguous
    have last := rest.le
    have tail := ih rest (fun _ => room (by simp)) fun o mem => ahead o (by simp [mem])
    have next := @behind_eq ring small offset status (by
      have := room (by simp)
      omega)
    rw [length_cons, ← Nat.add_assoc, itemsFrom, if_neg (ahead offset (by simp)), next, tail]
    rfl

theorem itemsFrom_head (ring : Ring) (fuel : Nat) :
    itemsFrom ring fuel (ring.allocOffset, false) = [] := by
  cases fuel with
  | zero => rfl
  | succ fuel => simp [itemsFrom]

theorem room_of_ne_nil {ring : Ring} {start : Nat} {items : List Nat}
    (contiguous : Contiguous ring.memory start items ring.allocOffset)
    (room : ring.allocOffset + headerSize < ring.size ∨ ring.allocOffset = 0)
    (some : items ≠ []) : ring.allocOffset + headerSize ≤ ring.size := by
  rcases room with room | zero
  · exact room.le
  · have le := contiguous.le
    have positive := List.length_pos_iff.mpr some
    simp only [headerSize] at le
    omega

theorem Contiguous.ne_stop {memory : Nat → Item} {start stop : Nat} {items : List Nat}
    (contiguous : Contiguous memory start items stop) : ∀ offset ∈ items, offset ≠ stop := by
  rintro offset mem rfl
  have inside := contiguous.bounds mem
  simp only [headerSize] at inside
  omega

theorem uncollected_eq {ring : Ring} {items : List Nat} (small : ring.size < 2 ^ 32)
    (inOrder : InOrder ring items) : uncollected ring = items := by
  have length := inOrder_length inOrder
  have enough : items.length ≤ ring.size := by
    simp only [headerSize] at length
    omega
  obtain ⟨fuel, fuelIs⟩ := Nat.exists_eq_add_of_le' enough
  unfold uncollected
  cases inOrder with
  | level clear contiguous room =>
    rw [clear, fuelIs, Nat.add_right_comm, itemsFrom_append small false contiguous
      (room_of_ne_nil contiguous room) (fun o mem => by simp [contiguous.ne_stop o mem]),
      itemsFrom_head, List.append_nil]
  | @wrapped upper lower padding set contiguous isFree toEnd room contiguous' behind =>
    have le := contiguous.le
    have upperRoom : upper ≠ [] → padding + headerSize ≤ ring.size := fun _ => by omega
    have lowerRoom : lower ≠ [] → ring.allocOffset + headerSize ≤ ring.size := fun _ => by omega
    rw [set, fuelIs, length_append, length_cons,
      show fuel + (upper.length + (lower.length + 1)) + 1 =
        ((fuel + 1) + lower.length + 1) + upper.length by omega,
      itemsFrom_append small true contiguous upperRoom (by simp), itemsFrom,
      if_neg (by simp), behind_end small true toEnd,
      itemsFrom_append small false contiguous' lowerRoom
        (fun o mem => by simp [contiguous'.ne_stop o mem]),
      itemsFrom_head, List.append_nil]

/-- The ring after the collector has gone over one item. -/
def popped (ring : Ring) : Ring :=
  let next := ring.behind ring.collectOffset ring.status
  { ring with
    collectOffset := next.1
    status := next.2
    freeCount := sub32 ring.freeCount 1 }

theorem inOrder_popped {ring : Ring} {offset : Nat}
    (small : ring.size < 2 ^ 32) (inOrder : InOrder ring (offset :: items)) :
    ring.collectOffset = offset ∧ InOrder (popped ring) items := by
  generalize whole : offset :: items = pending at inOrder
  cases inOrder with
  | level clear contiguous room =>
    subst whole
    obtain ⟨rfl, rest⟩ := contiguous
    have last := rest.le
    have roomy : ring.allocOffset + headerSize ≤ ring.size := by
      simp only [headerSize] at last room ⊢
      omega
    have next := @behind_eq ring small ring.collectOffset ring.status (by omega)
    refine ⟨rfl, .level ?_ ?_ room⟩
    · rw [popped, next]
      exact clear
    · rw [popped, next]
      exact rest
  | @wrapped upper lower padding set contiguous isFree toEnd room contiguous' behind =>
    cases upper with
    | nil =>
      obtain ⟨rfl, rfl⟩ := List.cons.inj whole
      have tail : ring.collectOffset = offset := contiguous
      have next := behind_end small ring.status (tail ▸ toEnd)
      refine ⟨tail, .level ?_ ?_ ?_⟩
      · rw [popped, next]
      · rw [popped, next]
        exact contiguous'
      · show ring.allocOffset + headerSize < ring.size ∨ ring.allocOffset = 0
        omega
    | cons first upper =>
      obtain ⟨rfl, rfl⟩ := List.cons.inj whole
      obtain ⟨rfl, rest⟩ := contiguous
      have last := rest.le
      have next := @behind_eq ring small ring.collectOffset ring.status (by omega)
      refine ⟨rfl, .wrapped ?_ ?_ isFree toEnd room contiguous' ?_⟩
      · rw [popped, next]
        exact set
      · rw [popped, next]
        exact rest
      · rw [popped, next]
        exact behind.trans (Nat.le_add_right _ _)

theorem Consistent.popped {ring : Ring} {offset : Nat}
    (consistent : Consistent ring (offset :: items))
    (isFree : (ring.memory offset).lock = false) : Consistent (popped ring) items := by
  obtain ⟨small, inOrder, counted⟩ := consistent
  have length := inOrder_length inOrder
  have bound := List.length_filter_le (fun o => !(ring.memory o).lock) (offset :: items)
  refine ⟨small, (inOrder_popped small inOrder).2, ?_⟩
  simp only [freeItems, List.filter_cons, isFree, Bool.not_false, if_true, length_cons,
    headerSize] at counted length bound
  simp only [RingBuffer.popped, freeItems]
  rw [sub32_eq (by omega) (by omega)]
  omega

theorem Consistent.collectLoop {ring : Ring} (consistent : Consistent ring items) :
    ∃ gone rest, items = gone ++ rest ∧ (∀ offset ∈ gone, (ring.memory offset).lock = false) ∧
      Consistent (collectLoop ring.freeCount ring) rest ∧
      (collectLoop ring.freeCount ring).memory = ring.memory ∧
      (collectLoop ring.freeCount ring).size = ring.size ∧
      (collectLoop ring.freeCount ring).allocCount = ring.allocCount ∧
      (usedItems ring items = [] → rest = []) := by
  generalize rounds : ring.freeCount = count
  induction count generalizing ring items with
  | zero =>
    refine ⟨[], items, rfl, by simp, consistent, rfl, rfl, rfl, fun unused => ?_⟩
    have none := consistent.counted
    rw [rounds, eq_comm, List.length_eq_zero_iff] at none
    refine List.eq_nil_iff_forall_not_mem.mpr fun offset mem => ?_
    have used := List.filter_eq_nil_iff.mp unused offset mem
    have freed := List.filter_eq_nil_iff.mp none offset mem
    simp_all
  | succ count ih =>
    cases items with
    | nil =>
      have none := consistent.counted
      simp [rounds, freeItems] at none
    | cons offset items =>
      have tail := (inOrder_popped consistent.small consistent.inOrder).1
      by_cases used : (ring.memory offset).lock = true
      · have stops : RingBuffer.collectLoop (count + 1) ring = ring := by
          simp [RingBuffer.collectLoop, tail, used]
        rw [stops]
        refine ⟨[], offset :: items, rfl, by simp, consistent, rfl, rfl, rfl, fun unused => ?_⟩
        exact absurd used (List.filter_eq_nil_iff.mp unused offset (by simp))
      · rw [Bool.not_eq_true] at used
        have next := consistent.popped used
        have goes : RingBuffer.collectLoop (count + 1) ring =
            RingBuffer.collectLoop count (RingBuffer.popped ring) := by
          simp [RingBuffer.collectLoop, tail, used, RingBuffer.popped]
        have countIs : (RingBuffer.popped ring).freeCount = count := by
          have before := consistent.counted
          rw [next.counted]
          simp only [freeItems, List.filter_cons, used, Bool.not_false, if_true,
            length_cons, rounds] at before
          exact (Nat.succ.inj before).symm
        obtain ⟨gone, rest, split, free, after, memory, size, allocated, clean⟩ :=
          ih next countIs
        rw [goes]
        refine ⟨offset :: gone, rest, by rw [split]; rfl, ?_, after, memory, size, allocated,
          fun unused => clean ?_⟩
        · rintro o (_ | ⟨_, mem⟩)
          · exact used
          · exact free o mem
        · simpa [usedItems, used, RingBuffer.popped] using unused

/-- The regions in use, in the order of the ring. -/
def regions (ring : Ring) (items : List Nat) : List (Nat × Nat) :=
  (usedItems ring items).map ring.region

theorem freeItems_congr {ring ring' : Ring} {items : List Nat}
    (same : ∀ offset ∈ items, ring'.memory offset = ring.memory offset) :
    freeItems ring' items = freeItems ring items :=
  List.filter_congr fun offset mem => by rw [same offset mem]

theorem regions_congr {ring ring' : Ring} {items : List Nat}
    (same : ∀ offset ∈ items, ring'.memory offset = ring.memory offset) :
    regions ring' items = regions ring items := by
  have used : usedItems ring' items = usedItems ring items :=
    List.filter_congr fun offset mem => by rw [same offset mem]
  rw [regions, regions, used]
  refine List.map_congr_left fun offset mem => ?_
  rw [Ring.region, Ring.region, same offset (List.mem_of_mem_filter mem)]

theorem regions_append (ring : Ring) (items items' : List Nat) :
    regions ring (items ++ items') = regions ring items ++ regions ring items' := by
  rw [regions, usedItems, filter_append, List.map_append]
  rfl

theorem freeCount_lt {ring : Ring} {items : List Nat} (consistent : Consistent ring items) :
    ring.freeCount + 1 < 2 ^ 32 := by
  have length := inOrder_length consistent.inOrder
  have bound := List.length_filter_le (fun o => !(ring.memory o).lock) items
  have counted := consistent.counted
  have small := consistent.small
  simp only [freeItems, headerSize] at counted length
  omega

/-- A region of `allocSize` bytes, header included, can be cut at the head. -/
def Fits (ring : Ring) (allocSize : Nat) : Prop :=
  (ring.status = false → ring.allocOffset + allocSize + headerSize < ring.size) ∧
    (ring.status = true → ring.allocOffset + allocSize ≤ ring.collectOffset)

/-- The ring after the head has gone round and left a padding item. -/
def padded (ring : Ring) : Ring :=
  { ring with
    memory := update ring.memory ring.allocOffset
      ⟨false, (ring.memory ring.allocOffset).index, ring.size - ring.allocOffset - headerSize⟩
    freeCount := ring.freeCount + 1
    allocOffset := 0
    status := true }

theorem wrap_eq {ring : Ring} (small : ring.size < 2 ^ 32) (fewer : ring.freeCount + 1 < 2 ^ 32)
    (header : ring.allocOffset + headerSize ≤ ring.size) : wrap ring = padded ring := by
  have skip : sub32 ring.size ring.allocOffset = ring.size - ring.allocOffset :=
    sub32_eq (by omega) small
  have enough : headerSize ≤ ring.size - ring.allocOffset := by omega
  simp only [wrap, skip, enough, if_true]
  rw [add32_eq fewer, sub32_eq enough (by omega)]
  rfl

theorem Consistent.padded {ring : Ring} {items : List Nat} (consistent : Consistent ring items)
    (clear : ring.status = false) (header : ring.allocOffset + headerSize ≤ ring.size) :
    Consistent (padded ring) (items ++ [ring.allocOffset]) ∧
      regions (padded ring) (items ++ [ring.allocOffset]) = regions ring items := by
  obtain ⟨small, inOrder, counted⟩ := consistent
  cases inOrder with
  | wrapped set => exact absurd (clear.symm.trans set) Bool.false_ne_true
  | level clear contiguous room =>
    have same : ∀ offset ∈ items, (RingBuffer.padded ring).memory offset = ring.memory offset :=
      fun offset mem => update_of_ne (contiguous.ne_stop offset mem) _ _
    have new : (RingBuffer.padded ring).memory ring.allocOffset =
        ⟨false, (ring.memory ring.allocOffset).index,
          ring.size - ring.allocOffset - headerSize⟩ := update_self _ _ _
    refine ⟨⟨small, .wrapped rfl ?_ ?_ ?_ room rfl (Nat.zero_le _), ?_⟩, ?_⟩
    · exact contiguous.congr fun offset mem => by rw [same offset mem]
    · rw [new]
    · rw [new]
      show ring.allocOffset + (headerSize + (ring.size - ring.allocOffset - headerSize)) = ring.size
      omega
    · have kept := freeItems_congr same
      simp only [freeItems, filter_append, length_append] at kept counted ⊢
      rw [kept, ← counted]
      simp [RingBuffer.padded]
    · rw [regions_append, regions_congr same]
      simp [regions, usedItems, new]

theorem Consistent.makeRoom {ring : Ring} (consistent : Consistent ring items)
    {allocSize : Nat} (header : headerSize ≤ allocSize) (sum : allocSize + headerSize < 2 ^ 32) :
    ∃ items', Consistent (makeRoom ring allocSize).1 items' ∧
      regions (makeRoom ring allocSize).1 items' = regions ring items ∧
      (makeRoom ring allocSize).1.size = ring.size ∧
      (makeRoom ring allocSize).1.allocCount = ring.allocCount ∧
      (allocSize ≤ (makeRoom ring allocSize).2 → Fits (makeRoom ring allocSize).1 allocSize) := by
  have fewer := freeCount_lt consistent
  have small := consistent.small
  have order := consistent.inOrder
  cases status : ring.status with
  | true =>
    have stays : RingBuffer.makeRoom ring allocSize =
        (ring, sub32 ring.collectOffset ring.allocOffset) := if_pos status
    rw [stays]
    refine ⟨items, consistent, rfl, rfl, rfl, fun enough => ?_⟩
    cases order with
    | level clear => exact absurd (clear.symm.trans status) Bool.false_ne_true
    | wrapped set contiguous isFree toEnd room contiguous' behind =>
      have le := contiguous.le
      have capacity : sub32 ring.collectOffset ring.allocOffset =
          ring.collectOffset - ring.allocOffset := sub32_eq behind (by omega)
      simp only [capacity] at enough
      refine ⟨fun clear => absurd (clear.symm.trans status) Bool.false_ne_true, fun _ => ?_⟩
      show ring.allocOffset + allocSize ≤ ring.collectOffset
      omega
  | false =>
    simp only [RingBuffer.makeRoom, status, Bool.false_eq_true, if_false]
    cases order with
    | wrapped set => exact absurd (status.symm.trans set) Bool.false_ne_true
    | level clear contiguous room =>
      by_cases around : sub32 ring.size headerSize ≤ add32 ring.allocOffset allocSize
      · rw [if_pos around]
        have inside : ring.allocOffset + headerSize ≤ ring.size := by
          rcases room with room | zero
          · exact room.le
          · by_contra tiny
            rw [zero, add32_eq (by omega)] at around
            simp only [sub32, headerSize] at around sum tiny
            omega
        obtain ⟨after, same⟩ := consistent.padded status inside
        rw [wrap_eq small fewer inside]
        refine ⟨_, after, same, rfl, rfl, fun enough => ⟨nofun, fun _ => ?_⟩⟩
        have capacity : sub32 (RingBuffer.padded ring).collectOffset
            (RingBuffer.padded ring).allocOffset = ring.collectOffset :=
          (sub32_eq (Nat.zero_le _) (by
            have le := contiguous.le
            show ring.collectOffset < 2 ^ 32
            omega)).trans (Nat.sub_zero _)
        rw [capacity] at enough
        exact (Nat.zero_add _).trans_le enough
      · rw [if_neg around]
        refine ⟨items, consistent, rfl, rfl, rfl, fun enough =>
          ⟨fun _ => ?_, fun set => absurd (status.symm.trans set) Bool.false_ne_true⟩⟩
        have inside : ring.allocOffset ≤ ring.size := by omega
        simp only [sub32_eq inside small] at enough
        have fits : ring.allocOffset + allocSize ≤ ring.size := by omega
        rw [add32_eq (by omega), sub32_eq (by omega) small] at around
        show ring.allocOffset + allocSize + headerSize < ring.size
        omega

/-! ## Cutting and freeing regions -/

theorem Consistent.place {ring : Ring} (consistent : Consistent ring items)
    {size allocSize : Nat} (sizeIs : allocSize = headerSize + size) (fits : Fits ring allocSize) :
    Consistent (place ring size allocSize) (items ++ [ring.allocOffset]) ∧
      regions (place ring size allocSize) (items ++ [ring.allocOffset]) =
        regions ring items ++ [(ring.allocOffset + headerSize, size)] := by
  obtain ⟨small, inOrder, counted⟩ := consistent
  have ahead : ∀ offset ∈ items, offset ≠ ring.allocOffset := by
    cases inOrder with
    | level clear contiguous room => exact contiguous.ne_stop
    | wrapped set contiguous isFree toEnd room contiguous' behind =>
      have room' := fits.2 set
      have le := contiguous.le
      have positive : 0 < headerSize := Nat.succ_pos _
      intro offset mem
      rcases List.mem_append.mp mem with upper | rest
      · have inside := contiguous.bounds upper
        omega
      · rcases List.mem_cons.mp rest with rfl | lower
        · omega
        · exact contiguous'.ne_stop offset lower
  have same : ∀ offset ∈ items,
      (RingBuffer.place ring size allocSize).memory offset = ring.memory offset :=
    fun offset mem => update_of_ne (ahead offset mem) _ _
  have new : (RingBuffer.place ring size allocSize).memory ring.allocOffset =
      ⟨true, ring.allocCount % 2 ^ 16, size⟩ := update_self _ _ _
  refine ⟨⟨small, ?_, ?_⟩, ?_⟩
  · cases inOrder with
    | level clear contiguous room =>
      have room' := fits.1 clear
      have head : (RingBuffer.place ring size allocSize).allocOffset =
          ring.allocOffset + allocSize := add32_eq (by omega)
      refine .level clear ?_ (.inl (by rw [head]; exact room'))
      rw [head]
      refine (contiguous.congr fun offset mem => by rw [same offset mem]).append ⟨rfl, ?_⟩
      rw [new, sizeIs]
      rfl
    | @wrapped upper lower padding set contiguous isFree toEnd room contiguous' behind =>
      have room' := fits.2 set
      have le := contiguous.le
      have head : (RingBuffer.place ring size allocSize).allocOffset =
          ring.allocOffset + allocSize := add32_eq (by omega)
      rw [List.append_assoc, List.cons_append]
      have kept : (RingBuffer.place ring size allocSize).memory padding = ring.memory padding :=
        same padding (by simp)
      refine .wrapped set ?_ (by rw [kept]; exact isFree) (by rw [kept]; exact toEnd) room ?_
        (by rw [head]; exact room')
      · exact contiguous.congr fun offset mem => by rw [same offset (by simp [mem])]
      · rw [head]
        refine (contiguous'.congr fun offset mem => by
          rw [same offset (by simp [mem])]).append ⟨rfl, ?_⟩
        rw [new, sizeIs]
        rfl
  · have kept := freeItems_congr same
    simp only [freeItems, filter_append, length_append] at kept counted ⊢
    rw [kept, ← counted]
    simp [RingBuffer.place]
  · rw [regions_append, regions_congr same]
    simp [regions, usedItems, new, Ring.region]

def unlocked (ring : Ring) (offset : Nat) : Ring :=
  { ring with
    memory := update ring.memory offset { ring.memory offset with lock := false }
    freeCount := ring.freeCount + 1 }

theorem length_unlocked (ring : Ring) (offset o : Nat) :
    ((unlocked ring offset).memory o).length = (ring.memory o).length := by
  by_cases same : o = offset
  · subst same
    simp [unlocked]
  · simp [unlocked, update_of_ne same]

theorem inOrder_unlocked {ring : Ring} (offset : Nat)
    (inOrder : InOrder ring items) : InOrder (unlocked ring offset) items := by
  have lengths := fun o => length_unlocked ring offset o
  cases inOrder with
  | level clear contiguous room =>
    exact .level clear (contiguous.congr fun o _ => lengths o) room
  | @wrapped upper lower padding set contiguous isFree toEnd room contiguous' behind =>
    refine .wrapped set (contiguous.congr fun o _ => lengths o) ?_ ?_ room
      (contiguous'.congr fun o _ => lengths o) behind
    · by_cases same : padding = offset
      · subst same
        simp [unlocked]
      · simpa [unlocked, update_of_ne same] using isFree
    · rw [lengths]
      exact toEnd

theorem Consistent.free {ring : Ring} (consistent : Consistent ring items)
    {ptr size : Nat} (live : (ptr, size) ∈ regions ring items) :
    Consistent (swRingBufferFree ring ptr) items ∧ regions (swRingBufferFree ring ptr) items =
        (regions ring items).filter fun region => region.1 != ptr := by
  have fewer := freeCount_lt consistent
  obtain ⟨offset, used, regionIs⟩ := List.mem_map.mp live
  obtain ⟨mem, locked⟩ := List.mem_filter.mp used
  obtain ⟨rfl, rfl⟩ := Prod.mk.inj regionIs
  have freed : swRingBufferFree ring (offset + headerSize) = unlocked ring offset := by
    simp only [swRingBufferFree, Nat.add_sub_cancel, locked, if_true, add32_eq fewer]
    rfl
  rw [freed]
  have distinct := inOrder_nodup consistent.inOrder
  obtain ⟨before, after, split⟩ := List.append_of_mem mem
  rw [split, List.nodup_append, List.nodup_cons] at distinct
  have others : ∀ o ∈ before ++ after, o ≠ offset := by
    rintro o isOther rfl
    rcases List.mem_append.mp isOther with inBefore | inAfter
    · exact distinct.2.2 o inBefore o (by simp) rfl
    · exact distinct.2.1.1 inAfter
  have same : ∀ o ∈ before ++ after, (unlocked ring offset).memory o = ring.memory o :=
    fun o isOther => update_of_ne (others o isOther) _ _
  have sameBefore := fun o (inBefore : o ∈ before) => same o (List.mem_append_left _ inBefore)
  have sameAfter := fun o (inAfter : o ∈ after) => same o (List.mem_append_right _ inAfter)
  have new : ((unlocked ring offset).memory offset).lock = false := by simp [unlocked]
  refine ⟨⟨consistent.small, inOrder_unlocked offset consistent.inOrder, ?_⟩, ?_⟩
  · have counted := consistent.counted
    have keptBefore := freeItems_congr sameBefore
    have keptAfter := freeItems_congr sameAfter
    rw [split] at counted ⊢
    simp only [freeItems, filter_append, List.filter_cons, locked, new, Bool.not_true,
      Bool.not_false, Bool.false_eq_true, if_true, if_false, length_append,
      length_cons] at counted keptBefore keptAfter ⊢
    rw [keptBefore, keptAfter]
    show ring.freeCount + 1 = _
    omega
  · have kept : ∀ part : List Nat, (∀ o ∈ part, o ∈ before ++ after) →
        (regions ring part).filter (fun region => region.1 != offset + headerSize) =
          regions ring part := by
      intro part inside
      refine List.filter_eq_self.mpr fun region isRegion => ?_
      obtain ⟨o, isUsed, rfl⟩ := List.mem_map.mp isRegion
      have ne := others o (inside o (List.mem_of_mem_filter isUsed))
      simpa [Ring.region] using ne
    rw [split, ← List.singleton_append, regions_append, regions_append, regions_append,
      regions_append, filter_append, filter_append, regions_congr sameBefore,
      regions_congr sameAfter, kept before fun o => List.mem_append_left _,
      kept after fun o => List.mem_append_right _]
    simp [regions, usedItems, new, locked, Ring.region]

/-- What the collector leaves for an allocation. -/
def collected (ring : Ring) : Ring := collectLoop ring.freeCount ring

theorem swRingBufferAlloc_eq (ring : Ring) {size : Nat} (sum : size + 2 * headerSize < 2 ^ 32) :
    swRingBufferAlloc ring size =
      if (makeRoom (collected ring) (headerSize + size)).2 < headerSize + size then
        ((makeRoom (collected ring) (headerSize + size)).1, none) else
        (place (makeRoom (collected ring) (headerSize + size)).1 size (headerSize + size),
          some ((makeRoom (collected ring) (headerSize + size)).1.allocOffset + headerSize)) := by
  have sizeIs : add32 size headerSize = headerSize + size := by
    rw [add32_eq (by omega), Nat.add_comm]
  have collects : (if 0 < ring.freeCount then swRingBufferCollect ring else ring) =
      collected ring := by
    cases count : ring.freeCount with
    | zero => simp [collected, count, collectLoop]
    | succ n => simp [collected, swRingBufferCollect]
  simp only [swRingBufferAlloc, sizeIs, collects]

/-- **One allocation** keeps the regions in use; the new one comes last. -/
theorem Consistent.alloc {ring : Ring} (consistent : Consistent ring items)
    {size : Nat} (sum : size + 2 * headerSize < 2 ^ 32) :
    ∃ items', Consistent (swRingBufferAlloc ring size).1 items' ∧
      (swRingBufferAlloc ring size).1.size = ring.size ∧
      regions (swRingBufferAlloc ring size).1 items' =
        regions ring items ++ ((swRingBufferAlloc ring size).2.map (·, size)).toList ∧
      (swRingBufferAlloc ring size).1.allocCount =
        if (swRingBufferAlloc ring size).2.isSome then add32 ring.allocCount 1
        else ring.allocCount := by
  obtain ⟨gone, rest, split, free, after, memory, sizeIs, countIs, -⟩ := consistent.collectLoop
  replace after : Consistent (collected ring) rest := after
  have kept : regions (collected ring) rest = regions ring items := by
    have goneUnused : regions ring gone = [] := by
      rw [regions, usedItems, List.filter_eq_nil_iff.mpr fun o mem => by simp [free o mem]]
      rfl
    rw [split, regions_append, goneUnused, List.nil_append]
    exact regions_congr fun o _ => by rw [collected, memory]
  obtain ⟨items', ready, same, readySize, readyCount, fits⟩ :=
    after.makeRoom (Nat.le_add_right headerSize size) (by omega)
  have fields : (RingBuffer.makeRoom (collected ring) (headerSize + size)).1.size = ring.size ∧
      (RingBuffer.makeRoom (collected ring) (headerSize + size)).1.allocCount = ring.allocCount :=
    ⟨readySize.trans sizeIs, readyCount.trans countIs⟩
  rw [swRingBufferAlloc_eq ring sum]
  by_cases short : (RingBuffer.makeRoom (collected ring) (headerSize + size)).2 < headerSize + size
  · rw [if_pos short]
    exact ⟨items', ready, fields.1, (same.trans kept).trans (List.append_nil _).symm, fields.2⟩
  · rw [if_neg short]
    obtain ⟨placed, regionsAre⟩ := ready.place rfl (fits (Nat.le_of_not_lt short))
    refine ⟨_, placed, fields.1, ?_, ?_⟩
    · exact regionsAre.trans (congrArg (· ++ _) (same.trans kept))
    · exact congrArg (add32 · 1) fields.2

/-! ## An empty ring -/

theorem allocOffset_collectLoop (count : Nat) (ring : Ring) :
    (collectLoop count ring).allocOffset = ring.allocOffset := by
  induction count generalizing ring with
  | zero => rfl
  | succ count ih =>
    simp only [collectLoop]
    split
    · rfl
    · exact ih _

theorem Consistent.collected_of_unused {ring : Ring}
    (consistent : Consistent ring items) (unused : regions ring items = []) :
    Consistent (collected ring) [] ∧ (collected ring).status = false ∧
      (collected ring).collectOffset = ring.allocOffset ∧ (collected ring).size = ring.size := by
  obtain ⟨gone, rest, split, free, after, memory, sizeIs, countIs, clean⟩ := consistent.collectLoop
  obtain rfl := clean (List.map_eq_nil_iff.mp unused)
  have order := after.inOrder
  generalize none : ([] : List Nat) = pending at order
  cases order with
  | level clear contiguous room =>
    subst none
    exact ⟨after, clear, (show _ = _ from contiguous).trans (allocOffset_collectLoop _ _), sizeIs⟩
  | wrapped => simp at none

theorem Consistent.alloc_empty {ring : Ring} (consistent : Consistent ring items)
    (unused : regions ring items = []) (half : ring.size ≤ 2 ^ 31) {size : Nat}
    (fits : size + 2 * headerSize < ring.size) (fails : (swRingBufferAlloc ring size).2 = none) :
    ring.allocOffset ≠ 0 ∧ (swRingBufferAlloc ring size).1.allocOffset = 0 := by
  obtain ⟨after, clear, tail, sizeIs⟩ := consistent.collected_of_unused unused
  have head : (collected ring).allocOffset = ring.allocOffset := allocOffset_collectLoop _ _
  have inside : ring.allocOffset ≤ ring.size := by
    have order := after.inOrder
    generalize ([] : List Nat) = pending at order
    cases order with
    | level clear contiguous room => rw [head, sizeIs] at room; omega
    | wrapped set => exact absurd (clear.symm.trans set) Bool.false_ne_true
  rw [swRingBufferAlloc_eq ring (by omega)] at fails ⊢
  by_cases around : ring.size ≤ ring.allocOffset + (headerSize + size) + headerSize
  · have wraps : RingBuffer.makeRoom (collected ring) (headerSize + size) =
        (RingBuffer.wrap (collected ring), sub32 (RingBuffer.wrap (collected ring)).collectOffset
          (RingBuffer.wrap (collected ring)).allocOffset) := by
      simp only [RingBuffer.makeRoom, clear, Bool.false_eq_true, if_false, head, sizeIs]
      rw [sub32_eq (by omega) (by omega), add32_eq (by omega), if_pos (by omega)]
    refine ⟨fun zero => by omega, ?_⟩
    rw [wraps] at fails ⊢
    split
    · rfl
    · rename_i enough
      rw [if_neg enough] at fails
      cases fails
  · have stays : RingBuffer.makeRoom (collected ring) (headerSize + size) =
        (collected ring, ring.size - ring.allocOffset) := by
      simp only [RingBuffer.makeRoom, clear, Bool.false_eq_true, if_false, head, sizeIs]
      rw [sub32_eq (by omega) (by omega), add32_eq (by omega), if_neg (by omega),
        sub32_eq inside (by omega)]
    rw [stays, if_neg (by simp only; omega)] at fails
    cases fails

theorem Consistent.alloc_twice {ring : Ring} (consistent : Consistent ring items)
    (unused : regions ring items = []) (half : ring.size ≤ 2 ^ 31) {size : Nat}
    (fits : size + 2 * headerSize < ring.size) : (swRingBufferAlloc ring size).2.isSome ∨
      (swRingBufferAlloc (swRingBufferAlloc ring size).1 size).2.isSome := by
  cases first : (swRingBufferAlloc ring size).2 with
  | some ptr => exact .inl rfl
  | none =>
    right
    have start := (consistent.alloc_empty unused half fits first).2
    obtain ⟨items', after, sizeIs, same, -⟩ := @Consistent.alloc _ _ consistent size (by omega)
    rw [first, unused] at same
    cases second : (swRingBufferAlloc (swRingBufferAlloc ring size).1 size).2 with
    | some ptr => rfl
    | none =>
      exact absurd start
        (after.alloc_empty same (sizeIs ▸ half) (by rw [sizeIs]; exact fits) second).1

structure System where
  ring : Ring
  live : List (Nat × Nat)
  handedOut : Nat

inductive Event where
  | alloc (size : Nat)
  | free (ptr : Nat)

def System.next (system : System) : Event → System
  | .alloc size =>
    let result := swRingBufferAlloc system.ring size
    match result.2 with
    | none => { system with ring := result.1 }
    | some ptr => ⟨result.1, system.live ++ [(ptr, size)], system.handedOut + 1⟩
  | .free ptr =>
    { system with
      ring := swRingBufferFree system.ring ptr
      live := system.live.filter fun region => region.1 != ptr }

/-- A client frees what it holds, and asks for sizes that leave room for two headers in
`uint32_t`. -/
def Event.Allowed (system : System) : Event → Prop
  | .alloc size => size + 2 * headerSize < 2 ^ 32
  | .free ptr => ∃ size, (ptr, size) ∈ system.live

/-- The systems that the calls of clients lead to. -/
inductive Runs (size : Nat) (memory : Nat → Item) : System → Prop
  | start : Runs size memory ⟨Ring.new size memory, [], 0⟩
  | step {system : System} (event : Event) (earlier : Runs size memory system)
      (allowed : event.Allowed system) : Runs size memory (system.next event)

def Disjoint (region region' : Nat × Nat) : Prop :=
  region.1 + region.2 ≤ region'.1 ∨ region'.1 + region'.2 ≤ region.1

structure Sound (size : Nat) (system : System) : Prop where
  disjoint : system.live.Pairwise Disjoint
  inside : ∀ region ∈ system.live, region.1 + region.2 ≤ size
  freeCount : system.ring.freeCount = (freeItems system.ring (uncollected system.ring)).length
  live : system.live.length = (usedItems system.ring (uncollected system.ring)).length
  allocCount : system.ring.allocCount = system.handedOut % 2 ^ 32
  room : system.live = [] → size ≤ 2 ^ 31 → ∀ request, request + 2 * headerSize < size →
    (swRingBufferAlloc system.ring request).2.isSome ∨
      (swRingBufferAlloc (swRingBufferAlloc system.ring request).1 request).2.isSome

structure Agrees (size : Nat) (system : System) (items : List Nat) : Prop where
  consistent : Consistent system.ring items
  sizeIs : system.ring.size = size
  live : system.live = regions system.ring items
  allocCount : system.ring.allocCount = system.handedOut % 2 ^ 32

theorem Agrees.next {size : Nat} {system : System} {items : List Nat}
    (agrees : Agrees size system items) {event : Event} (allowed : event.Allowed system) :
    ∃ items', Agrees size (system.next event) items' := by
  obtain ⟨consistent, sizeIs, live, allocCount⟩ := agrees
  cases event with
  | alloc request =>
    obtain ⟨items', after, size', regions', count⟩ := consistent.alloc allowed
    simp only [System.next]
    cases result : (swRingBufferAlloc system.ring request).2 with
    | none =>
      rw [result] at regions' count
      exact ⟨items', after, size'.trans sizeIs,
        live.trans (by simpa using regions'.symm), count.trans allocCount⟩
    | some ptr =>
      rw [result] at regions' count
      refine ⟨items', after, size'.trans sizeIs, ?_, count.trans ?_⟩
      · show system.live ++ _ = _
        rw [live, regions']
        rfl
      · simp only [Option.isSome_some, if_true, allocCount, add32]
        exact Nat.mod_add_mod _ _ _
  | free ptr =>
    obtain ⟨request, held⟩ := allowed
    rw [live] at held
    obtain ⟨after, regions'⟩ := consistent.free held
    refine ⟨items, after, sizeIs, ?_, allocCount⟩
    show system.live.filter _ = _
    rw [live]
    exact regions'.symm

theorem Agrees.sound {size : Nat} {system : System} {items : List Nat}
    (agrees : Agrees size system items) : Sound size system := by
  obtain ⟨consistent, sizeIs, live, allocCount⟩ := agrees
  have pending := uncollected_eq consistent.small consistent.inOrder
  constructor
  · rw [live, regions, List.pairwise_map]
    refine ((inOrder_apart consistent.inOrder).filter _).imp ?_
    rintro o o' (apart | apart) <;> simp only [Disjoint, Ring.region, headerSize] at apart ⊢ <;>
      omega
  · intro region mem
    rw [live] at mem
    obtain ⟨o, used, rfl⟩ := List.mem_map.mp mem
    have inside := inOrder_bounds consistent.inOrder (List.mem_of_mem_filter used)
    rw [sizeIs] at inside
    simp only [Ring.region]
    omega
  · rw [pending]
    exact consistent.counted
  · rw [pending, live, regions, List.length_map]
  · exact allocCount
  · intro none half request fits
    rw [live] at none
    rw [← sizeIs] at half fits
    exact consistent.alloc_twice none half fits

theorem agrees_start {size : Nat} (small : size < 2 ^ 32) (memory : Nat → Item) :
    Agrees size ⟨Ring.new size memory, [], 0⟩ [] :=
  ⟨⟨small, .level rfl rfl (.inr rfl), rfl⟩, rfl, rfl, rfl⟩

end PhpExts.Swoole.RingBuffer
