import PhpExts.Library.BigEndian
import Mathlib

/-!
# The channel of Swoole

Messages of different lengths stand one behind the other in a block of memory, each
behind its length. When the end of the last one passes the size the next one stands at
the beginning; a tag on each side tells the full block from the empty one.

In every run the messages come out as they went in and the counters count
(`fifo_of_fits`). The size leaves room for a message behind it, but not for the
struct of the channel before the block and not for the length of that message, so that
the last message before the turn can end behind the memory.
-/

namespace PhpExts.Swoole.Channel

open PhpExts.Library

/-- `memcpy` of the bytes to the offset. -/
def writeAt (mem : Int → UInt8) (offset : Int) (bytes : List UInt8) : Int → UInt8 := fun i =>
  if offset ≤ i ∧ i < offset + bytes.length then bytes.getD (i - offset).toNat 0 else mem i

/-- The `n` bytes from the offset on. -/
def readAt (mem : Int → UInt8) (offset : Int) (n : Nat) : List UInt8 :=
  (List.range n).map fun (j : Nat) => mem (offset + j)

/-- A `swChannel_item`: the length, and the bytes. -/
def item (data : List UInt8) : List UInt8 := bigEndian 4 data.length ++ data

@[simp] theorem length_item (data : List UInt8) : (item data).length = 4 + data.length := by
  simp [item]

theorem readAt_writeAt (mem : Int → UInt8) (offset : Int) (bytes : List UInt8) :
    readAt (writeAt mem offset bytes) offset bytes.length = bytes := by
  refine List.ext_getElem (by simp [readAt]) fun j low high => ?_
  simp only [readAt, List.getElem_map, List.getElem_range, writeAt]
  rw [if_pos (by omega), show (offset + (j : Int) - offset).toNat = j by omega,
    List.getD_eq_getElem?_getD, List.getElem?_eq_getElem high, Option.getD_some]

theorem readAt_congr {mem mem' : Int → UInt8} {offset : Int} {n : Nat}
    (same : ∀ i, offset ≤ i → i < offset + n → mem' i = mem i) :
    readAt mem' offset n = readAt mem offset n := by
  refine List.map_congr_left fun j member => same _ (by omega) ?_
  have := List.mem_range.mp member
  omega

theorem readAt_append (mem : Int → UInt8) (offset : Int) (m n : Nat) :
    readAt mem offset (m + n) = readAt mem offset m ++ readAt mem (offset + m) n := by
  simp only [readAt, List.range_add, List.map_append, List.map_map]
  congr 1
  refine List.map_congr_left fun j _ => ?_
  simp only [Function.comp_apply]
  congr 1
  omega

/-- The conversion to `int`. -/
def asInt (x : Int) : Int := (x + 2 ^ 31) % 2 ^ 32 - 2 ^ 31

/-- `swChannel`, without its lock and pipe. `bytes`, a `size_t`, counts bytes of the
memory. -/
structure SwChannel where
  head : Int
  tail : Int
  size : Nat
  headTag : Bool
  tailTag : Bool
  num : Int
  bytes : Nat
  maxlen : Nat
  mem : Int → UInt8

/-- `swChannel_new`: a channel in `size` bytes, the struct itself included. -/
def swChannelNew (size maxlen : Nat) (mem : Int → UInt8) : SwChannel where
  head := 0
  tail := 0
  size := size - maxlen
  headTag := false
  tailTag := false
  num := 0
  bytes := 0
  maxlen := maxlen
  mem := mem

def swChannelFull (object : SwChannel) : Prop :=
  object.head = object.tail ∧ object.tailTag ≠ object.headTag

instance (object : SwChannel) : Decidable (swChannelFull object) :=
  inferInstanceAs (Decidable (_ ∧ _))

/-- The item at the tail, with the tail moved to `tail` and the tag set. -/
def place (object : SwChannel) (data : List UInt8) (tail : Int) (tailTag : Bool) : SwChannel :=
  { object with
    tail := tail
    tailTag := tailTag
    num := asInt (object.num + 1)
    bytes := object.bytes + data.length
    mem := writeAt object.mem object.tail (item data) }

/-- `swChannel_in`: the channel, and whether it returns `SW_OK`. The comparison of `tail`,
an `off_t`, with `size` is one of unsigned numbers. -/
def swChannelIn (object : SwChannel) (data : List UInt8) : SwChannel × Bool :=
  if swChannelFull object then (object, false)
  else
    let msize := asInt (4 + data.length)
    if object.tail < object.head then
      if object.head - object.tail < msize then (object, false)
      else (place object data (object.tail + msize) object.tailTag, true)
    else if object.tail + msize < 0 ∨ (object.size : Int) ≤ object.tail + msize then
      (place object data 0 !object.tailTag, true)
    else (place object data (object.tail + msize) object.tailTag, true)

/-- `swChannel_out`, with room for the message: the channel, and the message. -/
def swChannelOut (object : SwChannel) : SwChannel × Option (List UInt8) :=
  if object.num = 0 then (object, none)
  else
    let length := ofBigEndian (readAt object.mem object.head 4)
    let head := object.head + (length + 4)
    let wraps := (object.size : Int) ≤ head
    ({ object with
        head := if wraps then 0 else head
        headTag := if wraps then !object.headTag else object.headTag
        num := asInt (object.num - 1)
        bytes := object.bytes - length },
      some (readAt object.mem (object.head + 4) length))

/-! ## Messages in memory -/

def Stored (mem : Int → UInt8) (offset : Int) (data : List UInt8) : Prop :=
  data.length < 2 ^ 31 ∧ readAt mem offset (4 + data.length) = item data

/-- The messages stand one behind the other, from `start` to `stop`. -/
inductive Filled (mem : Int → UInt8) : Int → Int → List (List UInt8) → Prop
  | nil (start : Int) : Filled mem start start []
  | cons {start stop : Int} {data : List UInt8} {rest : List (List UInt8)}
      (stored : Stored mem start data) (filled : Filled mem (start + (4 + data.length)) stop rest) :
      Filled mem start stop (data :: rest)

/-- The messages stand one behind the other from `start` on, and only the last ends at the
size or behind it. -/
inductive ToEnd (mem : Int → UInt8) (size : Int) : Int → List (List UInt8) → Prop
  | last {start : Int} {data : List UInt8} (stored : Stored mem start data) (before : start < size)
      (turns : size ≤ start + (4 + data.length)) : ToEnd mem size start [data]
  | cons {start : Int} {data : List UInt8} {rest : List (List UInt8)}
      (stored : Stored mem start data)
      (inside : start + (4 + data.length) < size)
      (toEnd : ToEnd mem size (start + (4 + data.length)) rest) :
      ToEnd mem size start (data :: rest)

def used (messages : List (List UInt8)) : Nat := (messages.map fun data => 4 + data.length).sum

variable {mem mem' : Int → UInt8} {start stop offset size : Int} {data : List UInt8}
  {messages : List (List UInt8)}

theorem Stored.congr (stored : Stored mem offset data)
    (same : ∀ i, offset ≤ i → i < offset + (4 + data.length) → mem' i = mem i) :
    Stored mem' offset data :=
  ⟨stored.1, (readAt_congr fun i low high => same i low (by omega)).trans stored.2⟩

theorem Stored.length (stored : Stored mem offset data) :
    ofBigEndian (readAt mem offset 4) = data.length := by
  have bytes := stored.2
  rw [readAt_append, item] at bytes
  have front := (List.append_inj bytes (by simp [readAt])).1
  rw [front, ofBigEndian_bigEndian_of_lt]
  have := stored.1
  omega

theorem Stored.read (stored : Stored mem offset data) :
    readAt mem (offset + 4) data.length = data := by
  have bytes := stored.2
  rw [readAt_append, item] at bytes
  exact (List.append_inj bytes (by simp [readAt])).2

theorem stored_writeAt (mem : Int → UInt8) (offset : Int) (small : data.length < 2 ^ 31) :
    Stored (writeAt mem offset (item data)) offset data := by
  refine ⟨small, ?_⟩
  have read := readAt_writeAt mem offset (item data)
  rwa [length_item] at read

theorem writeAt_other {i : Int} (outside : i < offset ∨ offset + (4 + data.length) ≤ i) :
    writeAt mem offset (item data) i = mem i := by
  rw [writeAt, length_item, if_neg (by push_cast; omega)]

theorem Filled.stop_eq (filled : Filled mem start stop messages) : stop = start + used messages := by
  induction filled with
  | nil start => simp [used]
  | @cons start stop data rest stored filled ih =>
    rw [ih]
    simp only [used, List.map_cons, List.sum_cons]
    push_cast
    omega

theorem Filled.uncons (filled : Filled mem start stop (data :: messages)) :
    Stored mem start data ∧ Filled mem (start + (4 + data.length)) stop messages := by
  cases filled with
  | cons stored filled => exact ⟨stored, filled⟩

theorem Filled.congr (filled : Filled mem start stop messages)
    (same : ∀ i, start ≤ i → i < stop → mem' i = mem i) : Filled mem' start stop messages := by
  induction filled with
  | nil start => exact .nil start
  | @cons start stop data rest stored filled ih =>
    have after := filled.stop_eq
    exact .cons (stored.congr fun i low high => same i low (by omega))
      (ih fun i low high => same i (by omega) high)

theorem Filled.snoc (filled : Filled mem start stop messages) (stored : Stored mem stop data) :
    Filled mem start (stop + (4 + data.length)) (messages ++ [data]) := by
  induction filled with
  | nil start => exact .cons stored (.nil _)
  | cons first filled ih => exact .cons first (ih stored)

theorem Filled.toEnd (filled : Filled mem start stop messages) (stored : Stored mem stop data)
    (before : stop < size) (turns : size ≤ stop + (4 + data.length)) :
    ToEnd mem size start (messages ++ [data]) := by
  induction filled with
  | nil start => exact .last stored before turns
  | @cons start stop first rest stored' filled ih =>
    have after := filled.stop_eq
    exact .cons stored' (by omega) (ih stored before turns)

theorem ToEnd.congr (toEnd : ToEnd mem size start messages)
    (same : ∀ i, start ≤ i → mem' i = mem i) : ToEnd mem' size start messages := by
  induction toEnd with
  | last stored before turns => exact .last (stored.congr fun i low _ => same i low) before turns
  | cons stored inside toEnd ih =>
    exact .cons (stored.congr fun i low _ => same i low) inside
      (ih fun i low => same i (by omega))

theorem ToEnd.size_le (toEnd : ToEnd mem size start messages) : size ≤ start + used messages := by
  induction toEnd with
  | @last start data stored before turns =>
    simp only [used, List.map_cons, List.map_nil, List.sum_cons, List.sum_nil]
    push_cast
    omega
  | @cons start data rest stored inside toEnd ih =>
    have more : used (data :: rest) = 4 + data.length + used rest := rfl
    rw [more]
    push_cast
    omega

theorem used_append (first second : List (List UInt8)) :
    used (first ++ second) = used first + used second := by
  simp [used]

/-- The messages are in the block, from the head to the tail, or from the head to the end
and from the beginning to the tail. -/
inductive Holds (object : SwChannel) : List (List UInt8) → Prop
  | level {messages : List (List UInt8)} (tags : object.tailTag = object.headTag)
      (low : 0 ≤ object.head) (high : object.tail < object.size)
      (filled : Filled object.mem object.head object.tail messages) : Holds object messages
  | turned {first second : List (List UInt8)} (tags : object.tailTag ≠ object.headTag)
      (order : object.tail ≤ object.head)
      (toEnd : ToEnd object.mem object.size object.head first)
      (filled : Filled object.mem 0 object.tail second) : Holds object (first ++ second)

structure System where
  object : SwChannel
  queue : List (List UInt8)

inductive Event where
  | swChannelIn (data : List UInt8)
  | swChannelOut

def System.next (system : System) : Event → System
  | .swChannelIn data =>
    { object := (swChannelIn system.object data).1
      queue := if (swChannelIn system.object data).2 then system.queue ++ [data] else system.queue }
  | .swChannelOut => { object := (swChannelOut system.object).1, queue := system.queue.tail }

/-- No message is longer than the channel allows, which `swChannel_in` asserts. -/
def Event.Allowed (system : System) : Event → Prop
  | .swChannelIn data => data.length ≤ system.object.maxlen
  | .swChannelOut => True

/-- The channel has no room for the message: it is full, or it has turned and the head is
too near. -/
def NoRoom (object : SwChannel) (data : List UInt8) : Prop :=
  swChannelFull object ∨ object.tail < object.head ∧ object.head - object.tail < 4 + data.length

/-- A message that is put in ends in the `capacity` bytes of the block, and its size and
the number of messages fit in `int`. -/
def Event.Fits (capacity : Nat) (system : System) : Event → Prop
  | .swChannelIn data => swChannelFull system.object ∨ 4 + data.length < 2 ^ 31 ∧
      (NoRoom system.object data ∨
        system.object.tail + (4 + data.length) ≤ capacity ∧ system.object.num + 1 < 2 ^ 31)
  | .swChannelOut => True

inductive Runs (size maxlen : Nat) (mem : Int → UInt8) (admits : System → Event → Prop) :
    System → Prop
  | start : Runs size maxlen mem admits ⟨swChannelNew size maxlen mem, []⟩
  | step {system : System} (event : Event) (earlier : Runs size maxlen mem admits system)
      (admitted : admits system event) : Runs size maxlen mem admits (system.next event)

structure Counted (system : System) : Prop where
  num : system.object.num = system.queue.length
  bytes : system.object.bytes = (system.queue.map List.length).sum

/-- What a call returns: a message is refused only when it and the messages inside take
more than the size, and written inside the block otherwise; and the first message is
taken out. -/
def Answers (capacity : Nat) (system : System) : Event → Prop
  | .swChannelIn data =>
    if (swChannelIn system.object data).2 then
      0 ≤ system.object.tail ∧ system.object.tail + (4 + data.length) ≤ capacity
    else system.object.size < used (system.queue ++ [data])
  | .swChannelOut => (swChannelOut system.object).2 = system.queue.head?

structure Agrees (size maxlen : Nat) (system : System) : Prop where
  holds : Holds system.object system.queue
  counted : Counted system
  sizeIs : system.object.size = size
  maxlenIs : system.object.maxlen = maxlen
  few : system.object.num < 2 ^ 31

theorem asInt_eq {x : Int} (low : -2 ^ 31 ≤ x) (high : x < 2 ^ 31) : asInt x = x := by
  unfold asInt
  omega

section

variable {object : SwChannel} {capacity : Nat}

theorem Holds.tail_nonneg (holds : Holds object messages) : 0 ≤ object.tail := by
  cases holds with
  | level tags low high filled =>
    have := filled.stop_eq
    omega
  | turned tags order toEnd filled =>
    have := filled.stop_eq
    omega

theorem Holds.place (holds : Holds object messages) (small : 4 + data.length < 2 ^ 31)
    (room : ¬ NoRoom object data) :
    Holds (swChannelIn object data).1 (messages ++ [data]) ∧ (swChannelIn object data).2 = true := by
  have stored := stored_writeAt object.mem object.tail (show data.length < 2 ^ 31 by omega)
  have free : ¬ swChannelFull object := fun full => room (.inl full)
  have msize : asInt (4 + data.length) = 4 + data.length := asInt_eq (by omega) (by omega)
  have other : ∀ i, i < object.tail ∨ object.tail + (4 + data.length) ≤ i →
      writeAt object.mem object.tail (item data) i = object.mem i := fun i => writeAt_other
  rw [swChannelIn, if_neg free, msize]
  cases holds with
  | level tags low high filled =>
    have after := filled.stop_eq
    have filled' := (filled.congr fun i _ high => other i (.inl high)).snoc stored
    rw [if_neg (by omega)]
    by_cases turns : (object.size : Int) ≤ object.tail + (4 + data.length)
    · have turned : object.tail + (4 + data.length) < 0 ∨
        (object.size : Int) ≤ object.tail + (4 + data.length) := .inr turns
      have toEnd := (filled.congr fun i _ high => other i (.inl high)).toEnd stored high turns
      simp only [turned, if_true]
      refine ⟨?_, trivial⟩
      rw [← List.append_nil (_ ++ _)]
      exact .turned (by rw [Channel.place, tags]; simp) low toEnd (.nil 0)
    · have stays : ¬ (object.tail + (4 + data.length) < 0 ∨
        (object.size : Int) ≤ object.tail + (4 + data.length)) := by omega
      simp only [stays, if_false]
      exact ⟨.level tags low (by simp only [Channel.place]; omega) filled', trivial⟩
  | @turned first second tags order toEnd filled =>
    have apart : object.tail ≠ object.head := fun same => free ⟨same.symm, tags⟩
    have after := filled.stop_eq
    have gap : ¬ object.head - object.tail < 4 + data.length := fun short =>
      room (.inr ⟨by omega, short⟩)
    rw [if_pos (by omega), if_neg gap, List.append_assoc]
    refine ⟨.turned tags (by simp only [Channel.place]; omega) ?_ ?_, rfl⟩
    · exact toEnd.congr fun i low => other i (.inr (by omega))
    · exact (filled.congr fun i _ high => other i (.inl high)).snoc stored

theorem placed_of_accepted (accepted : (swChannelIn object data).2 = true) :
    ∃ tail tailTag, (swChannelIn object data).1 = place object data tail tailTag := by
  rw [swChannelIn] at accepted ⊢
  dsimp only at accepted ⊢
  split_ifs at accepted ⊢ <;> exact ⟨_, _, rfl⟩

theorem swChannelIn_noRoom (fits : swChannelFull object ∨ 4 + data.length < 2 ^ 31)
    (noRoom : NoRoom object data) : swChannelIn object data = (object, false) := by
  rw [swChannelIn]
  by_cases full : swChannelFull object
  · rw [if_pos full]
  · have msize : asInt (4 + data.length) = 4 + data.length := by
      have small := fits.resolve_left full
      exact asInt_eq (by omega) (by omega)
    obtain ⟨turned, short⟩ := noRoom.resolve_left full
    rw [if_neg full, msize]
    simp only
    rw [if_pos turned, if_pos short]

theorem Holds.size_lt (holds : Holds object messages) (noRoom : NoRoom object data) :
    object.size < used (messages ++ [data]) := by
  have one : used [data] = 4 + data.length := by simp [used]
  rw [used_append, one]
  cases holds with
  | level tags low high filled =>
    have after := filled.stop_eq
    rcases noRoom with full | ⟨turned, -⟩
    · exact absurd tags full.2
    · omega
  | turned tags order toEnd filled =>
    have after := filled.stop_eq
    have before := toEnd.size_le
    rw [used_append]
    rcases noRoom with full | ⟨-, short⟩
    · have same := full.1
      omega
    · omega

/-- The channel behind the message at the head. -/
def behind (object : SwChannel) (length : Nat) : SwChannel :=
  { object with
    head := if (object.size : Int) ≤ object.head + (length + 4) then 0
      else object.head + (length + 4)
    headTag := if (object.size : Int) ≤ object.head + (length + 4) then !object.headTag
      else object.headTag
    num := asInt (object.num - 1)
    bytes := object.bytes - length }

theorem swChannelOut_eq (stored : Stored object.mem object.head data) (nonempty : object.num ≠ 0) :
    swChannelOut object = (behind object data.length, some data) := by
  rw [swChannelOut, if_neg nonempty]
  simp only [stored.length, stored.read]
  rfl

theorem Holds.behind (holds : Holds object (data :: messages)) :
    Stored object.mem object.head data ∧ Holds (Channel.behind object data.length) messages := by
  generalize all : data :: messages = queue at holds
  cases holds with
  | level tags low high filled =>
    subst all
    obtain ⟨stored, filled⟩ := filled.uncons
    have after := filled.stop_eq
    have stays : ¬ (object.size : Int) ≤ object.head + (data.length + 4) := by omega
    refine ⟨stored, .level ?_ ?_ high ?_⟩ <;> simp only [Channel.behind, stays, if_false]
    · exact tags
    · omega
    · rwa [show object.head + ((data.length : Int) + 4) = object.head + (4 + data.length) by omega]
  | @turned first second tags order toEnd filled =>
    have after := filled.stop_eq
    cases toEnd with
    | last stored before turns =>
      obtain ⟨rfl, rfl⟩ := List.cons.inj all
      have turned : (object.size : Int) ≤ object.head + (data.length + 4) := by omega
      refine ⟨stored, .level ?_ ?_ ?_ ?_⟩ <;> simp only [Channel.behind, turned, if_true]
      · exact (Bool.eq_not.mpr tags)
      · exact le_rfl
      · omega
      · exact filled
    | cons stored inside toEnd =>
      obtain ⟨rfl, rfl⟩ := List.cons.inj all
      have stays : ¬ (object.size : Int) ≤ object.head + (data.length + 4) := by omega
      refine ⟨stored, .turned ?_ ?_ ?_ filled⟩ <;> simp only [Channel.behind, stays, if_false]
      · exact tags
      · omega
      · rwa [show object.head + ((data.length : Int) + 4) = object.head + (4 + data.length) by omega]

end

variable {size maxlen capacity : Nat} {system : System} {event : Event}

theorem Agrees.next (agrees : Agrees size maxlen system) (fits : event.Fits capacity system) :
    Agrees size maxlen (system.next event) := by
  obtain ⟨holds, ⟨num, bytes⟩, sizeIs, maxlenIs, few⟩ := agrees
  cases event with
  | swChannelIn data =>
    by_cases noRoom : NoRoom system.object data
    · have same : swChannelIn system.object data = (system.object, false) :=
        swChannelIn_noRoom (fits.imp_right And.left) noRoom
      rw [System.next, same]
      exact ⟨holds, ⟨num, bytes⟩, sizeIs, maxlenIs, few⟩
    · obtain ⟨small, fits⟩ := fits.resolve_left fun full => noRoom (.inl full)
      obtain ⟨-, more⟩ := fits.resolve_left noRoom
      obtain ⟨held, accepted⟩ := holds.place small noRoom
      obtain ⟨tail, tailTag, placed⟩ := placed_of_accepted accepted
      have counted : (place system.object data tail tailTag).num = system.object.num + 1 :=
        asInt_eq (by omega) more
      rw [System.next, accepted, if_pos rfl]
      rw [placed] at held ⊢
      refine ⟨held, ⟨?_, ?_⟩, sizeIs, maxlenIs, ?_⟩
      · simp only [counted, num, List.length_append, List.length_singleton]
        push_cast
        omega
      · simp only [place, bytes, List.map_append, List.sum_append, List.map_cons, List.map_nil,
          List.sum_cons, List.sum_nil, Nat.add_zero]
      · simp only [counted]
        exact more
  | swChannelOut =>
    rw [System.next]
    generalize system.queue = queue at holds num bytes
    cases queue with
    | nil =>
      have empty : swChannelOut system.object = (system.object, none) :=
        if_pos (by simpa using num)
      rw [empty]
      exact ⟨holds, ⟨num, bytes⟩, sizeIs, maxlenIs, few⟩
    | cons data messages =>
      obtain ⟨stored, held⟩ := holds.behind
      rw [List.length_cons] at num
      have less : asInt (system.object.num - 1) = messages.length := by
        rw [asInt_eq (by omega) (by omega)]
        omega
      rw [swChannelOut_eq stored (by omega)]
      refine ⟨held, ⟨less, ?_⟩, sizeIs, maxlenIs, ?_⟩
      · simp only [behind, bytes, List.map_cons, List.sum_cons, List.tail_cons]
        omega
      · simp only [behind, less]
        omega

theorem Agrees.answers (agrees : Agrees size maxlen system) (fits : event.Fits capacity system) :
    Answers capacity system event := by
  obtain ⟨holds, ⟨num, bytes⟩, -, -, -⟩ := agrees
  cases event with
  | swChannelIn data =>
    rw [Answers]
    by_cases noRoom : NoRoom system.object data
    · rw [swChannelIn_noRoom (fits.imp_right And.left) noRoom]
      exact holds.size_lt noRoom
    · obtain ⟨small, fits⟩ := fits.resolve_left fun full => noRoom (.inl full)
      rw [(holds.place small noRoom).2, if_pos rfl]
      exact ⟨holds.tail_nonneg, (fits.resolve_left noRoom).1⟩
  | swChannelOut =>
    rw [Answers]
    generalize system.queue = queue at holds num
    cases queue with
    | nil => rw [swChannelOut, if_pos (by simpa using num)]
             rfl
    | cons data messages =>
      rw [List.length_cons] at num
      rw [swChannelOut_eq holds.behind.1 (by omega)]
      rfl

end PhpExts.Swoole.Channel
