import Mathlib

/-!
# The strings of a packed stream

A string that `swoole_serialize` has written before is written as the offset at which the stream
has it. Which strings these are is looked up in a filter, a table of hashes, that all calls share:
it is cleared at the end of a call that may use it, and not at the start.

So a call out of `__sleep` finds what the outer call has written, and one in the other mode turns
the filter off for the rest of the outer call and for its end. While no call begins on a filter
that has entries, every reference names its string in its own stream (`Clean.kept`).
-/

namespace PhpExts.Swoole.Serialize

open List (append_assoc cons_append length_append)

abbrev Bytes := List UInt8

def filterSize : Nat := 1024

structure Poolstr where
  str : Bytes
  offset : Nat
  deriving DecidableEq

/-- `mini_filter`, `bigger_filter` and what `swSeriaG` has on them. -/
structure Filter where
  packString : Bool
  findCnt : Nat
  missCnt : Nat
  biggerSize : Nat
  mini : Nat → Option Poolstr
  bigger : Option (Nat → Option Poolstr)

/-- As `swoole_serialize_init` leaves it. -/
def Filter.init : Filter where
  packString := false
  findCnt := 0
  missCnt := 0
  biggerSize := 0
  mini := fun _ => none
  bigger := none

def miniFilterClear (g : Filter) : Filter :=
  if g.packString then { Filter.init with packString := true } else g

def makeBiggerFilterSize (g : Filter) : Filter :=
  if filterSize ≤ g.missCnt ∧ g.findCnt < g.missCnt then
    { g with
      biggerSize := g.missCnt * 128 % 2 ^ 32
      bigger := some fun i => if i < filterSize then g.mini i else none }
  else g

/-- An offset with the class of the length; a large one is marked. -/
def added (zstr : Bytes) (offset byte : Nat) : Poolstr :=
  ⟨zstr, (offset <<< 3) ||| (if offset ≤ 0x1fff then byte else byte ||| 4)⟩

section

variable (hash : Bytes → UInt64)

/-- The place of a string in a table of a size. -/
def place (size : Nat) (zstr : Bytes) : Nat := (hash zstr).toNat &&& ((size + 2 ^ 32 - 1) % 2 ^ 32)

/-- `swoole_mini_filter_add`; the offset is that in the stream. -/
def miniFilterAdd (zstr : Bytes) (offset byte : Nat) (g : Filter) : Filter :=
  if g.packString then
    if offset ≥ 0x1fffffff then g
    else
      let entry := added zstr offset byte
      match g.bigger with
      | some table =>
        { g with bigger := some fun i =>
            if i = place hash g.biggerSize zstr then some entry else table i }
      | none =>
        makeBiggerFilterSize
          { g with
            mini := fun i => if i = place hash filterSize zstr then some entry else g.mini i
            missCnt := (g.missCnt + 1) % 2 ^ 32 }
  else g

def miniFilterFind (zstr : Bytes) (g : Filter) : Option Poolstr × Filter :=
  if g.packString then
    let slot :=
      match g.bigger with
      | some table => table (place hash g.biggerSize zstr)
      | none => g.mini (place hash filterSize zstr)
    match slot with
    | none => (none, g)
    | some entry =>
      if hash entry.str = hash zstr ∧ entry.str = zstr then
        (some entry, { g with findCnt := (g.findCnt + 1) % 2 ^ 32 })
      else (none, g)
  else (none, g)

end

def leBytes : Nat → Nat → Bytes
  | 0, _ => []
  | count + 1, number => UInt8.ofNat number :: leBytes count (number / 256)

/-- `SBucketType`: `key_type`, `key_len`, `data_len`, `data_type`. -/
def bucketType (keyType keyLen dataLen dataType : Nat) : UInt8 :=
  UInt8.ofNat (keyType + 2 * keyLen + 8 * dataLen + 32 * dataType)

/-- The field `data_len` alone. -/
def setDataLen (type : UInt8) (dataLen : Nat) : UInt8 :=
  UInt8.ofNat (type.toNat % 8 + 8 * dataLen + 32 * (type.toNat / 32))

/-- A stream that is written: its bytes, the places of the types of the entries that are not
complete, the innermost first, and the references that have been written. A scalar has no
strings in it. -/
structure Stream where
  out : Bytes
  types : List Nat
  refs : List Poolstr
  scalar : Bool

def Stream.patch (stream : Stream) (dataLen : Nat) : Stream :=
  match stream.types with
  | [] => stream
  | p :: _ => { stream with out := stream.out.modify p fun type => setDataLen type dataLen }

def Stream.append (stream : Stream) (bytes : Bytes) : Stream :=
  { stream with out := stream.out ++ bytes }

def Stream.entry (stream : Stream) (type : UInt8) : Stream :=
  { stream with out := stream.out ++ [type], types := stream.out.length :: stream.types }

def Stream.refer (stream : Stream) (zstr : Bytes) (entry : Poolstr) : Stream :=
  { stream with
    out := stream.out ++
      (if entry.offset &&& 4 ≠ 0 then leBytes 4 entry.offset else leBytes 2 entry.offset)
    refs := ⟨zstr, entry.offset⟩ :: stream.refs }

/-- The class of a length: `key_len` or `data_len`. -/
def lengthClass (zstr : Bytes) : Nat :=
  if zstr.length ≤ 0xff then 1 else if zstr.length ≤ 0xffff then 2 else 0

def offsetByte (zstr : Bytes) : Nat :=
  if zstr.length ≤ 0xff then 1 else if zstr.length ≤ 0xffff then 2 else 3

def lengthBytes (byte : Nat) (zstr : Bytes) : Bytes :=
  if byte = 1 then leBytes 1 zstr.length
  else if byte = 2 then leBytes 2 zstr.length
  else leBytes 8 zstr.length

/-- What the process has: the streams that are written, the innermost first, those that are
complete, and the filter. -/
structure State where
  streams : List Stream
  done : List Stream
  filter : Filter

inductive Action where
  /-- `pack`, with a scalar or not. -/
  | begin (fast scalar : Bool) (dataType : Nat)
  /-- Bytes that are neither a type nor a string of the filter. -/
  | raw (bytes : Bytes)
  /-- An entry with an integer for its key, or with none in a packed array. -/
  | index (keyLen : Nat) (bytes : Bytes) (dataType : Nat)
  /-- An entry with a string for its key. -/
  | key (zstr : Bytes) (dataType : Nat)
  /-- A string as the value of an entry. -/
  | value (zstr : Bytes)
  /-- `data_len` is set. -/
  | dataLen (length : Nat)
  /-- The entry is complete. -/
  | close
  /-- The end of `php_swoole_serialize`. -/
  | finish

section

variable (hash : Bytes → UInt64) (behind : Bytes → Bytes)

def seriEof : Bytes := [69, 79, 70]

/-- The key of an entry. The address of a long one is counted in strings, not in bytes, and what
is there is written. -/
def writeKey (zstr : Bytes) (dataType : Nat) (stream : Stream) (g : Filter) : Stream × Filter :=
  match miniFilterFind hash zstr g with
  | (some entry, g) => ((stream.entry (bucketType 1 3 0 dataType)).refer zstr entry, g)
  | (none, g) =>
    let stream := stream.entry (bucketType 1 (lengthClass zstr) 0 dataType)
    let g := miniFilterAdd hash zstr stream.out.length (offsetByte zstr) g
    if zstr.length ≤ 0xffff then
      (stream.append (lengthBytes (offsetByte zstr) zstr ++ zstr), g)
    else (stream.append (behind zstr), g)

def writeValue (zstr : Bytes) (stream : Stream) (g : Filter) : Stream × Filter :=
  match miniFilterFind hash zstr g with
  | (some entry, g) => ((stream.patch 3).refer zstr entry, g)
  | (none, g) =>
    let stream := stream.patch (lengthClass zstr)
    let g := miniFilterAdd hash zstr stream.out.length (offsetByte zstr) g
    (stream.append (lengthBytes (offsetByte zstr) zstr ++ zstr), g)

/-- A step; without a call there is nothing to be done but to begin one. -/
def step (s : State) : Action → State
  | .begin fast scalar dataType =>
    { s with
      streams := ⟨[bucketType 0 0 0 dataType], [0], [], scalar⟩ :: s.streams
      filter := { s.filter with packString := !fast } }
  | action =>
    match s.streams with
    | [] => s
    | stream :: outer =>
      match action with
      | .begin _ _ _ => s
      | .raw bytes => { s with streams := stream.append bytes :: outer }
      | .index keyLen bytes dataType =>
        { s with streams :=
            (stream.entry (bucketType 0 keyLen 0 dataType)).append bytes :: outer }
      | .key zstr dataType =>
        if stream.scalar then s
        else
        let (stream, g) := writeKey hash behind zstr dataType stream s.filter
        { s with streams := stream :: outer, filter := g }
      | .value zstr =>
        if stream.scalar then s
        else
        let (stream, g) := writeValue hash zstr stream s.filter
        { s with streams := stream :: outer, filter := g }
      | .dataLen length => { s with streams := stream.patch length :: outer }
      | .close => { s with streams := { stream with types := stream.types.tail } :: outer }
      | .finish =>
        if stream.scalar then { s with streams := outer, done := stream :: s.done }
        else
          { streams := outer
            done := stream.append seriEof :: s.done
            filter := miniFilterClear s.filter }

def run (actions : List Action) (s : State) : State := actions.foldl (step hash behind) s

end

def State.init : State := ⟨[], [], .init⟩

/-! ## What is done for a value -/

/-- `swoole_serialize_long`. -/
def longActions (value : Int) : List Action :=
  if value ≤ 0x7f ∧ value ≥ -0x7f then [.dataLen 0, .raw (leBytes 1 (value % 2 ^ 8).toNat)]
  else if value ≤ 0x7fff ∧ value ≥ -0x7fff then
    [.dataLen 1, .raw (leBytes 2 (value % 2 ^ 16).toNat)]
  else if value ≤ 0x7fffffff ∧ value ≥ -0x7fffffff then
    [.dataLen 2, .raw (leBytes 4 (value % 2 ^ 32).toNat)]
  else [.dataLen 3, .raw (leBytes 8 (value % 2 ^ 64).toNat)]

/-- `seria_array_type`. -/
def arrayTypeActions (count : Nat) : List Action :=
  if count ≤ 0xff then [.dataLen 1, .raw (leBytes 1 count)]
  else if count ≤ 0xffff then [.dataLen 2, .raw (leBytes 2 count)]
  else [.dataLen 0, .raw (leBytes 4 count)]

def indexAction (index : UInt64) (dataType : Nat) : Action :=
  if index.toNat ≤ 0xff then .index 1 (leBytes 1 index.toNat) dataType
  else if index.toNat ≤ 0xffff then .index 2 (leBytes 2 index.toNat) dataType
  else .index 3 (leBytes 8 index.toNat) dataType

mutual

/-- A value. The properties of an object are those that are serialized, and `sleep` has the calls
that `__sleep` makes before. -/
inductive Value where
  | null
  | bool (value : Bool)
  | long (value : Int64)
  | double (bits : UInt64)
  | string (zstr : Bytes)
  | array (packed : Bool) (nextFree : Nat) (elems : Elems)
  | object (name : Bytes) (sleep : Calls) (packed : Bool) (nextFree : Nat) (elems : Elems)

inductive Elems where
  | nil
  | index (index : UInt64) (data : Value) (rest : Elems)
  | key (key : Bytes) (data : Value) (rest : Elems)

/-- Calls of `pack`. -/
inductive Calls where
  | nil
  | pack (fast : Bool) (value : Value) (rest : Calls)

end

/-- The type of a value, which for an object is `IS_UNDEF`. -/
def Value.type : Value → Nat
  | .null => 1
  | .bool false => 2
  | .bool true => 3
  | .long _ => 4
  | .double _ => 5
  | .string _ => 6
  | .array _ _ _ => 7
  | .object _ _ _ _ _ => 0

def Value.scalar : Value → Bool
  | .array _ _ _ | .object _ _ _ _ _ => false
  | .null | .bool _ | .long _ | .double _ | .string _ => true

/-- `nNumOfElements`. -/
def Elems.count : Elems → Nat
  | .nil => 0
  | .index _ _ rest => rest.count + 1
  | .key _ _ rest => rest.count + 1

def nameActions (name : Bytes) : List Action :=
  if name.length > 0xffff then [] else [.raw (leBytes 2 name.length), .raw name]

mutual

def valueActions : Value → List Action
  | .null => []
  | .bool _ => []
  | .long value => longActions value.toInt
  | .double bits => [.raw (leBytes 8 bits.toNat)]
  | .string zstr => [.value zstr]
  | .array packed nextFree elems =>
    arrayTypeActions elems.count ++ elemsActions (packed && nextFree == elems.count) elems
  | .object name sleep packed nextFree elems =>
    nameActions name ++ (callsActions sleep ++
      (arrayTypeActions elems.count ++ elemsActions (packed && nextFree == elems.count) elems))

/-- `swoole_serialize_arr`, with the keys or without. -/
def elemsActions (isPack : Bool) : Elems → List Action
  | .nil => []
  | .index index data rest =>
    (if isPack then .index 0 [] data.type else indexAction index data.type) ::
      (valueActions data ++ (.close :: elemsActions isPack rest))
  | .key key data rest =>
    (if isPack then .index 0 [] data.type else .key key data.type) ::
      (valueActions data ++ (.close :: elemsActions isPack rest))

/-- `pack` with `php_swoole_serialize` and `swoole_seria_dispatch`, one call after the other. -/
def callsActions : Calls → List Action
  | .nil => []
  | .pack fast (.string zstr) rest =>
    .begin fast true 6 :: .raw zstr :: .finish :: callsActions rest
  | .pack fast value rest =>
    .begin fast value.scalar value.type :: (valueActions value ++ (.finish :: callsActions rest))

end

structure Filter.Each (holds : Poolstr → Prop) (g : Filter) : Prop where
  mini : ∀ i entry, g.mini i = some entry → holds entry
  bigger : ∀ table, g.bigger = some table → ∀ i entry, table i = some entry → holds entry

def Filter.Empty (g : Filter) : Prop := g.Each fun _ => False

section

variable {holds : Poolstr → Prop} {g : Filter}

theorem Filter.Each.imp {holds' : Poolstr → Prop} (each : g.Each holds)
    (weaker : ∀ entry, holds entry → holds' entry) : g.Each holds' :=
  ⟨fun i entry isIn => weaker entry (each.mini i entry isIn),
    fun table isTable i entry isIn => weaker entry (each.bigger table isTable i entry isIn)⟩

theorem Filter.Empty.each (empty : g.Empty) : g.Each holds := empty.imp fun _ => False.elim

theorem Filter.each_init (packString : Bool) :
    ({ Filter.init with packString := packString } : Filter).Each holds :=
  ⟨fun _ _ isIn => (Option.some_ne_none _ isIn.symm).elim,
    fun _ isTable => (Option.some_ne_none _ isTable.symm).elim⟩

theorem miniFilterClear_empty (off : g.packString = false → g.Empty) :
    (miniFilterClear g).Empty := by
  rw [miniFilterClear]
  split
  · exact Filter.each_init true
  · next other => exact off (by simpa using other)

theorem makeBiggerFilterSize_each (each : g.Each holds) : (makeBiggerFilterSize g).Each holds := by
  rw [makeBiggerFilterSize]
  split
  · refine ⟨each.mini, fun table isTable i entry isIn => ?_⟩
    cases isTable
    dsimp only at isIn
    split at isIn
    · exact each.mini i entry isIn
    · cases isIn
  · exact each

variable {hash : Bytes → UInt64} {zstr : Bytes} {offset byte : Nat}

theorem miniFilterAdd_each (each : g.Each holds)
    (isNew : offset < 0x1fffffff → holds (added zstr offset byte)) :
    (miniFilterAdd hash zstr offset byte g).Each holds := by
  rw [miniFilterAdd]
  split
  · split
    · exact each
    · next small =>
        have isNew := isNew (by omega)
        have update {table : Nat → Option Poolstr} (j : Nat)
            (old : ∀ i entry, table i = some entry → holds entry) : ∀ i entry,
              (if i = j then some (added zstr offset byte) else table i) = some entry →
                holds entry := by
          intro i entry isIn
          split at isIn
          · exact Option.some.inj isIn ▸ isNew
          · exact old i entry isIn
        cases isBigger : g.bigger with
        | none =>
          refine makeBiggerFilterSize_each ⟨update _ each.mini, fun table isTable => ?_⟩
          cases isTable
        | some table =>
          refine ⟨each.mini, fun table' isTable => ?_⟩
          cases isTable
          exact update _ (each.bigger table isBigger)
  · exact each

theorem miniFilterAdd_packString :
    (miniFilterAdd hash zstr offset byte g).packString = g.packString ∧
      (g.packString = false → miniFilterAdd hash zstr offset byte g = g) := by
  rw [miniFilterAdd]
  cases on : g.packString with
  | false => exact ⟨on, fun _ => rfl⟩
  | true =>
    refine ⟨?_, nofun⟩
    rw [if_pos rfl]
    split
    · exact on
    · dsimp only
      split
      · rfl
      · rw [makeBiggerFilterSize, apply_ite Filter.packString]
        exact ite_self _

theorem miniFilterFind_spec (each : g.Each holds) : (miniFilterFind hash zstr g).2.Each holds ∧
      (miniFilterFind hash zstr g).2.packString = g.packString ∧
      (g.packString = false → (miniFilterFind hash zstr g).2 = g) ∧
      ∀ entry, (miniFilterFind hash zstr g).1 = some entry →
        holds entry ∧ entry.str = zstr ∧ g.packString = true := by
  rw [miniFilterFind]
  cases on : g.packString with
  | false => exact ⟨each, on, fun _ => rfl, nofun⟩
  | true =>
    rw [if_pos rfl]
    have slot : ∀ entry, (match g.bigger with
        | some table => table (place hash g.biggerSize zstr)
        | none => g.mini (place hash filterSize zstr)) = some entry → holds entry := by
      intro entry isIn
      cases isBigger : g.bigger with
      | none =>
        rw [isBigger] at isIn
        exact each.mini _ entry isIn
      | some table =>
        rw [isBigger] at isIn
        exact each.bigger table isBigger _ entry isIn
    dsimp only
    split
    · exact ⟨each, on, by simp, nofun⟩
    · next entry isEntry =>
        split
        · next same =>
            refine ⟨⟨each.mini, each.bigger⟩, rfl, by simp, fun other found => ?_⟩
            cases found
            exact ⟨slot entry isEntry, same.2, rfl⟩
        · exact ⟨each, on, by simp, nofun⟩

end

/-! ## What an offset names -/

/-- The stream has a string at the offset of an entry, with its length class, and none of the
types that may still be patched is in it. -/
structure Names (stream : Stream) (entry : Poolstr) : Prop where
  text : ∃ front back, stream.out = front ++
    (lengthBytes (entry.offset &&& 3) entry.str ++ entry.str) ++ back ∧
      front.length = entry.offset >>> 3 ∧
      ∀ p ∈ stream.types, p < front.length ∨
        front.length + (lengthBytes (entry.offset &&& 3) entry.str ++ entry.str).length ≤ p
  isClass : (entry.offset &&& 3 = 1 ∧ entry.str.length ≤ 0xff) ∨
    (entry.offset &&& 3 = 2 ∧ entry.str.length ≤ 0xffff) ∨ entry.offset &&& 3 = 3

theorem modify_append_left {front back : Bytes} {p : Nat} (f : UInt8 → UInt8)
    (inside : p < front.length) : (front ++ back).modify p f = front.modify p f ++ back := by
  induction front generalizing p with
  | nil => cases inside
  | cons byte front ih =>
    cases p with
    | zero => rfl
    | succ p =>
      rw [cons_append, List.modify_succ_cons, List.modify_succ_cons, cons_append,
        ih (Nat.lt_of_succ_lt_succ inside)]

theorem modify_append_right {front back : Bytes} {p : Nat} (f : UInt8 → UInt8)
    (outside : front.length ≤ p) :
    (front ++ back).modify p f = front ++ back.modify (p - front.length) f := by
  induction front generalizing p with
  | nil => rfl
  | cons byte front ih =>
    cases p with
    | zero => cases outside
    | succ p =>
      rw [cons_append, List.modify_succ_cons, cons_append,
        ih (Nat.le_of_succ_le_succ outside), List.length_cons, Nat.add_sub_add_right]

section

variable {stream : Stream} {named : Poolstr}

theorem Names.append (names : Names stream named) (bytes : Bytes) :
    Names (stream.append bytes) named := by
  obtain ⟨⟨front, back, out, length, apart⟩, isClass⟩ := names
  refine ⟨⟨front, back ++ bytes, ?_, length, apart⟩, isClass⟩
  rw [Stream.append, out, append_assoc]

theorem Names.refer (names : Names stream named) (zstr : Bytes) (other : Poolstr) :
    Names (stream.refer zstr other) named :=
  have ⟨text, isClass⟩ := names.append _
  ⟨text, isClass⟩

theorem Names.entry (names : Names stream named) (type : UInt8) :
    Names (stream.entry type) named := by
  obtain ⟨⟨front, back, out, length, apart⟩, isClass⟩ := names
  refine ⟨⟨front, back ++ [type], ?_, length, fun p isIn => ?_⟩, isClass⟩
  · rw [Stream.entry, out, append_assoc]
  · rcases List.mem_cons.1 isIn with rfl | isIn
    · right
      simp only [out, length_append]
      omega
    · exact apart p isIn

theorem Names.close (names : Names stream named) :
    Names { stream with types := stream.types.tail } named := by
  obtain ⟨⟨front, back, out, length, apart⟩, isClass⟩ := names
  exact ⟨⟨front, back, out, length, fun p isIn => apart p (List.mem_of_mem_tail isIn)⟩, isClass⟩

theorem Names.patch (names : Names stream named) (dataLen : Nat) :
    Names (stream.patch dataLen) named := by
  obtain ⟨⟨front, back, whole, length, apart⟩, isClass⟩ := names
  obtain ⟨out, types, refs, scalar⟩ := stream
  simp only at whole apart
  subst whole
  cases types with
  | nil => exact ⟨⟨front, back, rfl, length, apart⟩, isClass⟩
  | cons p others =>
    refine ⟨?_, isClass⟩
    simp only [Stream.patch]
    rcases apart p (.head _) with before | behind
    · refine ⟨front.modify p fun type => setDataLen type dataLen, back, ?_, ?_, ?_⟩
      · rw [append_assoc, modify_append_left _ before]
        exact (append_assoc _ _ _).symm
      · rw [List.length_modify]
        exact length
      · rw [List.length_modify]
        exact apart
    · refine ⟨front, back.modify (p - (front.length +
        (lengthBytes (named.offset &&& 3) named.str ++ named.str).length))
          fun type => setDataLen type dataLen, ?_, length, apart⟩
      rw [modify_append_right _ (by rw [length_append]; exact behind), length_append]

theorem shift_or (offset : Nat) {byte : Nat} (small : byte < 8) :
    ((offset <<< 3) ||| byte) >>> 3 = offset ∧ ((offset <<< 3) ||| byte) &&& 3 = byte &&& 3 := by
  rw [← Nat.shiftLeft_add_eq_or_of_lt (by omega : byte < 2 ^ 3), Nat.shiftLeft_eq,
    Nat.shiftRight_eq_div_pow]
  refine ⟨by omega, ?_⟩
  rw [show (3 : Nat) = 2 ^ 2 - 1 from rfl, Nat.and_two_pow_sub_one_eq_mod,
    Nat.and_two_pow_sub_one_eq_mod]
  omega

theorem added_offset (zstr : Bytes) (offset : Nat) :
    (added zstr offset (offsetByte zstr)).offset >>> 3 = offset ∧
      (added zstr offset (offsetByte zstr)).offset &&& 3 = offsetByte zstr := by
  obtain ⟨byte, bounds, isByte⟩ : ∃ byte, (byte = 1 ∨ byte = 2 ∨ byte = 3) ∧
      offsetByte zstr = byte := by
    unfold offsetByte
    split
    · exact ⟨1, .inl rfl, rfl⟩
    · split
      · exact ⟨2, .inr (.inl rfl), rfl⟩
      · exact ⟨3, .inr (.inr rfl), rfl⟩
  rw [isByte, added]
  rcases bounds with rfl | rfl | rfl
  all_goals
    split
    · exact shift_or offset (by decide)
    · exact shift_or offset (by decide)

theorem offsetByte_class (zstr : Bytes) : (offsetByte zstr = 1 ∧ zstr.length ≤ 0xff) ∨
    (offsetByte zstr = 2 ∧ zstr.length ≤ 0xffff) ∨ offsetByte zstr = 3 := by
  unfold offsetByte
  split
  · next short => exact .inl ⟨rfl, short⟩
  · split
    · next short => exact .inr (.inl ⟨rfl, short⟩)
    · exact .inr (.inr rfl)

theorem names_added (stream : Stream) (zstr : Bytes)
    (inside : ∀ p ∈ stream.types, p < stream.out.length) :
    Names (stream.append (lengthBytes (offsetByte zstr) zstr ++ zstr))
      (added zstr stream.out.length (offsetByte zstr)) := by
  obtain ⟨offset, byte⟩ := added_offset zstr stream.out.length
  refine ⟨⟨stream.out, [], ?_, offset.symm, fun p isIn => .inl (inside p isIn)⟩, ?_⟩
  · rw [List.append_nil, byte]
    rfl
  · rw [byte]
    exact offsetByte_class zstr

end

/-! ## Writing a string -/

structure Written (stream stream' : Stream) (g g' : Filter) : Prop where
  filter : g'.Each (Names stream')
  packString : g'.packString = g.packString
  off : g.packString = false → g' = g
  refs : ∀ ref ∈ stream'.refs, Names stream' ref
  types : ∀ p ∈ stream'.types, p < stream'.out.length
  scalar : stream'.scalar = stream.scalar

section

variable {hash : Bytes → UInt64} {behind : Bytes → Bytes} {stream : Stream} {g : Filter}
  {zstr : Bytes}

theorem Stream.length_patch (stream : Stream) (dataLen : Nat) :
    (stream.patch dataLen).out.length = stream.out.length := by
  rw [Stream.patch]
  split
  · rfl
  · exact List.length_modify _ _ _

theorem Stream.patch_fields (stream : Stream) (dataLen : Nat) :
    (stream.patch dataLen).types = stream.types ∧ (stream.patch dataLen).refs = stream.refs ∧
      (stream.patch dataLen).scalar = stream.scalar := by
  rw [Stream.patch]
  split <;> exact ⟨rfl, rfl, rfl⟩

theorem entry_types (types : ∀ p ∈ stream.types, p < stream.out.length) (type : UInt8) :
    ∀ p ∈ (stream.entry type).types, p < (stream.entry type).out.length := by
  intro p isIn
  rw [Stream.entry, length_append]
  rcases List.mem_cons.1 isIn with rfl | isIn
  · exact Nat.lt_succ_self _
  · exact Nat.lt_succ_of_lt (types p isIn)

structure Growing (stream mid : Stream) (g g' : Filter) : Prop where
  each : g'.Each (Names mid)
  refs : ∀ ref ∈ mid.refs, Names mid ref
  types : ∀ p ∈ mid.types, p < mid.out.length
  scalar : mid.scalar = stream.scalar
  packString : g'.packString = g.packString
  off : g.packString = false → g' = g

variable {mid : Stream} {g' : Filter}

theorem Growing.append (ready : Growing stream mid g g') :
    Written stream (mid.append (lengthBytes (offsetByte zstr) zstr ++ zstr)) g
      (miniFilterAdd hash zstr mid.out.length (offsetByte zstr) g') := by
  obtain ⟨keeps, stays⟩ := @miniFilterAdd_packString g' hash zstr mid.out.length (offsetByte zstr)
  refine ⟨miniFilterAdd_each (ready.each.imp fun other names => names.append _)
    (fun _ => names_added _ _ ready.types), keeps.trans ready.packString, fun isOff => ?_,
    fun ref isIn => (ready.refs ref isIn).append _, fun p isIn => ?_, ready.scalar⟩
  · exact (stays (ready.packString.trans isOff)).trans (ready.off isOff)
  · rw [Stream.append, length_append]
    exact Nat.lt_add_right _ (ready.types p isIn)

theorem Growing.refer {entry : Poolstr} (ready : Growing stream mid g g')
    (named : Names mid ⟨zstr, entry.offset⟩) : Written stream (mid.refer zstr entry) g g' := by
  refine ⟨ready.each.imp fun other names => names.refer _ _, ready.packString, ready.off,
    fun ref isIn => ?_, fun p isIn => ?_, ready.scalar⟩
  · rcases List.mem_cons.1 isIn with rfl | isIn
    · exact named.refer _ _
    · exact (ready.refs ref isIn).refer _ _
  · rw [Stream.refer, length_append]
    exact Nat.lt_add_right _ (ready.types p isIn)

theorem writeKey_spec (each : g.Each (Names stream)) (refs : ∀ ref ∈ stream.refs, Names stream ref)
    (types : ∀ p ∈ stream.types, p < stream.out.length) (dataType : Nat)
    (short : zstr.length ≤ 0xffff ∨ (miniFilterFind hash zstr g).1 ≠ none) :
    Written stream (writeKey hash behind zstr dataType stream g).1 g
      (writeKey hash behind zstr dataType stream g).2 := by
  obtain ⟨eachFound, packString, off, isFound⟩ := @miniFilterFind_spec _ g hash zstr each
  have ready (type : UInt8) : Growing stream (stream.entry type) g (miniFilterFind hash zstr g).2 :=
    ⟨eachFound.imp fun other names => names.entry _, fun ref isIn => (refs ref isIn).entry _,
      entry_types types _, rfl, packString, off⟩
  rw [writeKey]
  rcases found : miniFilterFind hash zstr g with ⟨_ | entry, g'⟩
  · rw [found] at ready short
    have short := short.resolve_right fun other => other rfl
    simp only [if_pos short]
    exact (ready _).append
  · rw [found] at ready isFound
    obtain ⟨names, same, -⟩ := isFound entry rfl
    exact (ready _).refer ((same ▸ names : Names stream ⟨zstr, entry.offset⟩).entry _)

theorem writeValue_spec (each : g.Each (Names stream))
    (refs : ∀ ref ∈ stream.refs, Names stream ref)
    (types : ∀ p ∈ stream.types, p < stream.out.length) :
    Written stream (writeValue hash zstr stream g).1 g (writeValue hash zstr stream g).2 := by
  obtain ⟨eachFound, packString, off, isFound⟩ := @miniFilterFind_spec _ g hash zstr each
  have ready (dataLen : Nat) :
      Growing stream (stream.patch dataLen) g (miniFilterFind hash zstr g).2 := by
    obtain ⟨sameTypes, sameRefs, scalar⟩ := stream.patch_fields dataLen
    refine ⟨eachFound.imp fun other names => names.patch _,
      fun ref isIn => (refs ref (sameRefs ▸ isIn)).patch _, fun p isIn => ?_, scalar, packString, off⟩
    rw [stream.length_patch]
    exact types p (sameTypes ▸ isIn)
  rw [writeValue]
  rcases found : miniFilterFind hash zstr g with ⟨_ | entry, g'⟩
  · rw [found] at ready
    exact (ready _).append
  · rw [found] at ready isFound
    obtain ⟨names, same, -⟩ := isFound entry rfl
    exact (ready _).refer ((same ▸ names : Names stream ⟨zstr, entry.offset⟩).patch _)

end

/-- `swoole_check_size` counts in `int`. -/
def Stream.HasRoom (stream : Stream) (count : Nat) : Prop :=
  24 + stream.out.length + count + 15 + 4096 + 8 ≤ 2 ^ 31

instance (stream : Stream) (count : Nat) : Decidable (stream.HasRoom count) :=
  inferInstanceAs (Decidable (_ ≤ _))

def State.Takes (s : State) (zstr : Bytes) : Prop :=
  s.filter.missCnt + 1 < 2 ^ 25 ∧ ∀ stream ∈ s.streams, stream.HasRoom (zstr.length + 9)

instance (s : State) (zstr : Bytes) : Decidable (s.Takes zstr) :=
  inferInstanceAs (Decidable (_ ∧ _))

/-- The condition on a step: a call begins with an empty filter; a long key is one that is found;
and there is room for what is written. -/
def Meets (hash : Bytes → UInt64) (s : State) : Action → Prop
  | .begin _ _ _ => s.filter.Empty
  | .raw bytes => ∀ stream ∈ s.streams, stream.HasRoom bytes.length
  | .index _ bytes _ => ∀ stream ∈ s.streams, stream.HasRoom (bytes.length + 1)
  | .key zstr _ =>
    s.Takes zstr ∧ (zstr.length ≤ 0xffff ∨ (miniFilterFind hash zstr s.filter).1 ≠ none)
  | .value zstr => s.Takes zstr
  | .dataLen _ | .close => True
  | .finish => ∀ stream ∈ s.streams, stream.HasRoom 3

/-- A run in which every step meets the condition. -/
def Clean (hash : Bytes → UInt64) (behind : Bytes → Bytes) : List Action → State → Prop
  | [], _ => True
  | action :: actions, s =>
    Meets hash s action ∧ Clean hash behind actions (step hash behind s action)

def Refers (stream : Stream) (ref : Poolstr) : Prop :=
  (∃ front back, stream.out = front ++ (lengthBytes (ref.offset &&& 3) ref.str ++ ref.str) ++ back ∧
    front.length = ref.offset >>> 3) ∧
  ((ref.offset &&& 3 = 1 ∧ ref.str.length ≤ 0xff) ∨
    (ref.offset &&& 3 = 2 ∧ ref.str.length ≤ 0xffff) ∨ ref.offset &&& 3 = 3)

theorem Names.refers {stream : Stream} {ref : Poolstr} (names : Names stream ref) :
    Refers stream ref :=
  have ⟨⟨front, back, out, length, _⟩, isClass⟩ := names
  ⟨⟨front, back, out, length⟩, isClass⟩

structure Sound (s : State) : Prop where
  refers : ∀ stream ∈ s.streams ++ s.done, ∀ ref ∈ stream.refs, Refers stream ref
  cleared : s.streams = [] → s.filter.Empty

/-- What is kept. The entries are those of the innermost stream; there are none between the calls,
in a fast one and in one with a scalar. -/
structure Kept (s : State) : Prop where
  innermost : ∀ stream outer, s.streams = stream :: outer → s.filter.Each (Names stream)
  idle : s.streams = [] → s.filter.Empty
  off : s.filter.packString = false → s.filter.Empty
  scalar : ∀ stream outer, s.streams = stream :: outer → stream.scalar = true → s.filter.Empty
  refs : ∀ stream ∈ s.streams ++ s.done, ∀ ref ∈ stream.refs, Names stream ref
  types : ∀ stream ∈ s.streams, ∀ p ∈ stream.types, p < stream.out.length

section

variable {hash : Bytes → UInt64} {behind : Bytes → Bytes} {s : State}

theorem Kept.sound (kept : Kept s) : Sound s :=
  ⟨fun stream isIn ref isRef => (kept.refs stream isIn ref isRef).refers, kept.idle⟩

theorem kept_init : Kept .init where
  innermost := nofun
  idle := fun _ => Filter.each_init false
  off := fun _ => Filter.each_init false
  scalar := nofun
  refs := nofun
  types := nofun

theorem Kept.write {stream stream' : Stream} {outer done : List Stream} {g g' : Filter}
    (kept : Kept ⟨stream :: outer, done, g⟩) (written : Written stream stream' g g')
    (strings : stream.scalar = false ∨ g' = g) : Kept ⟨stream' :: outer, done, g'⟩ where
  innermost := by
    rintro _ _ ⟨⟩
    exact written.filter
  idle := nofun
  off := fun isOff => by
    have isOff := written.packString ▸ isOff
    rw [written.off isOff]
    exact kept.off isOff
  scalar := by
    rintro _ _ ⟨⟩ isScalar
    rw [written.scalar] at isScalar
    rcases strings with no | same
    · rw [no] at isScalar
      cases isScalar
    · rw [same]
      exact kept.scalar stream outer rfl isScalar
  refs := by
    exact List.forall_mem_cons.mpr ⟨written.refs, fun other isIn => kept.refs other (.tail _ isIn)⟩
  types := by
    exact List.forall_mem_cons.mpr
      ⟨written.types, fun other isIn => kept.types other (.tail _ isIn)⟩

theorem written_same {stream stream' : Stream} {g : Filter}
    (names : ∀ named, Names stream named → Names stream' named) (each : g.Each (Names stream))
    (refs : ∀ ref ∈ stream.refs, Names stream ref) (sameRefs : stream'.refs = stream.refs)
    (types : ∀ p ∈ stream'.types, p < stream'.out.length)
    (scalar : stream'.scalar = stream.scalar) : Written stream stream' g g where
  filter := each.imp names
  packString := rfl
  off := fun _ => rfl
  refs := fun ref isIn => names ref (refs ref (sameRefs ▸ isIn))
  types := types
  scalar := scalar

theorem Kept.ended {stream stream' : Stream} {outer done : List Stream} {g g' : Filter}
    (kept : Kept ⟨stream :: outer, done, g⟩) (empty : g'.Empty)
    (refs : ∀ ref ∈ stream'.refs, Names stream' ref) : Kept ⟨outer, stream' :: done, g'⟩ where
  innermost := fun _ _ _ => empty.each
  idle := fun _ => empty
  off := fun _ => empty
  scalar := fun _ _ _ _ => empty
  refs := by
    intro other isIn
    rcases List.mem_append.1 isIn with isIn | isIn
    · exact kept.refs other (.tail _ (List.mem_append_left _ isIn))
    · rcases List.mem_cons.1 isIn with rfl | isIn
      · exact refs
      · exact kept.refs other (.tail _ (List.mem_append_right _ isIn))
  types := fun other isIn => kept.types other (.tail _ isIn)

theorem Kept.step (kept : Kept s) {action : Action} (meets : Meets hash s action) :
    Kept (step hash behind s action) := by
  obtain ⟨streams, done, g⟩ := s
  cases action with
  | begin fast scalar dataType =>
    have empty : ({ g with packString := !fast } : Filter).Empty := ⟨meets.mini, meets.bigger⟩
    refine ⟨fun stream outer same => empty.each, fun _ => empty, fun _ => empty,
      fun _ _ _ _ => empty, fun stream isIn => ?_, fun stream isIn => ?_⟩
    · rcases List.mem_cons.1 isIn with rfl | isIn
      · exact nofun
      · exact kept.refs stream isIn
    · rcases List.mem_cons.1 isIn with rfl | isIn
      · intro p isP
        rw [List.mem_singleton.1 isP]
        exact Nat.zero_lt_one
      · exact kept.types stream isIn
  | raw bytes =>
    cases streams with
    | nil => exact kept
    | cons stream outer =>
      refine kept.write (written_same (fun named names => names.append bytes)
        (kept.innermost stream outer rfl) (kept.refs stream (.head _)) rfl
        (fun p isIn => ?_) rfl) (.inr rfl)
      rw [Stream.append, length_append]
      exact Nat.lt_add_right _ (kept.types stream (.head _) p isIn)
  | index keyLen bytes dataType =>
    cases streams with
    | nil => exact kept
    | cons stream outer =>
      refine kept.write (written_same (fun named names => (names.entry _).append bytes)
        (kept.innermost stream outer rfl) (kept.refs stream (.head _)) rfl
        (fun p isIn => ?_) rfl) (.inr rfl)
      rw [Stream.append, length_append]
      exact Nat.lt_add_right _ (entry_types (kept.types stream (.head _)) _ p isIn)
  | key zstr dataType =>
    cases streams with
    | nil => exact kept
    | cons stream outer =>
      simp only [PhpExts.Swoole.Serialize.step]
      split
      · exact kept
      · next noScalar =>
          exact kept.write (writeKey_spec (kept.innermost stream outer rfl)
            (kept.refs stream (.head _)) (kept.types stream (.head _))
            dataType meets.2) (.inl (by simpa using noScalar))
  | value zstr =>
    cases streams with
    | nil => exact kept
    | cons stream outer =>
      simp only [PhpExts.Swoole.Serialize.step]
      split
      · exact kept
      · next noScalar =>
          exact kept.write (writeValue_spec (kept.innermost stream outer rfl)
            (kept.refs stream (.head _)) (kept.types stream (.head _)))
            (.inl (by simpa using noScalar))
  | dataLen length =>
    cases streams with
    | nil => exact kept
    | cons stream outer =>
      obtain ⟨types, refs, scalar⟩ := stream.patch_fields length
      refine kept.write (written_same (fun named names => names.patch length)
        (kept.innermost stream outer rfl) (kept.refs stream (.head _)) refs
        (fun p isIn => ?_) scalar) (.inr rfl)
      rw [stream.length_patch]
      exact kept.types stream (.head _) p (types ▸ isIn)
  | close =>
    cases streams with
    | nil => exact kept
    | cons stream outer =>
      exact kept.write (written_same (fun named names => names.close)
        (kept.innermost stream outer rfl) (kept.refs stream (.head _)) rfl
        (fun p isIn => kept.types stream (.head _) p (List.mem_of_mem_tail isIn)) rfl)
        (.inr rfl)
  | finish =>
    cases streams with
    | nil => exact kept
    | cons stream outer =>
      simp only [PhpExts.Swoole.Serialize.step]
      cases isScalar : stream.scalar with
      | true =>
        exact kept.ended (kept.scalar stream outer rfl isScalar)
          (kept.refs stream (.head _))
      | false =>
        exact kept.ended (miniFilterClear_empty kept.off) fun ref isIn =>
          (kept.refs stream (.head _) ref isIn).append _

theorem Clean.kept {actions : List Action} (clean : Clean hash behind actions s) (kept : Kept s) :
    Kept (run hash behind actions s) := by
  induction actions generalizing s with
  | nil => exact kept
  | cons action actions ih => exact ih clean.2 (kept.step clean.1)

theorem Clean.of_prefix {actions before : List Action} (clean : Clean hash behind actions s)
    (front : before <+: actions) : Clean hash behind before s := by
  induction before generalizing actions s with
  | nil => trivial
  | cons action before ih =>
    obtain ⟨rest, rfl⟩ := front
    exact ⟨clean.1, ih clean.2 ⟨rest, rfl⟩⟩

end

/-- **In whatever order and modes values are packed, at every point of a run every reference that
has been written names its string in its own stream, and between the calls the filter is empty, if
every step meets the condition.** -/
theorem sound_of_clean {hash : Bytes → UInt64} {behind : Bytes → Bytes} {calls : Calls}
    (clean : Clean hash behind (callsActions calls) .init) :
    ∀ before, before <+: callsActions calls → Sound (run hash behind before .init) :=
  fun _ front => ((clean.of_prefix front).kept kept_init).sound

/-- `["a" => "a"]`, in the two modes. -/
def twoCalls : Calls :=
  .pack false (.array false 0 (.key [97] (.string [97]) .nil))
    (.pack true (.array false 0 (.key [97] (.string [97]) .nil)) .nil)

theorem sound_twoCalls : Sound (run (fun _ => 0) id (callsActions twoCalls) .init) := by
  have clean : Clean (fun _ => 0) id (callsActions twoCalls) .init :=
    ⟨Filter.each_init false, trivial, by simp only [Meets]; decide,
      ⟨by decide, .inl (by decide)⟩, by simp only [Meets]; decide, trivial,
      by simp only [Meets]; decide, Filter.each_init true, trivial, by simp only [Meets]; decide,
      ⟨by decide, .inl (by decide)⟩, by simp only [Meets]; decide, trivial,
      by simp only [Meets]; decide, trivial⟩
  exact sound_of_clean clean (callsActions twoCalls) List.prefix_rfl

/-- `["a" => 1, "b" => an object]`, where `__sleep` packs `["b" => 1]`. -/
def nestedCalls : Calls :=
  .pack false (.array false 0 (.key [97] (.long 1) (.key [98] (.object [88]
    (.pack false (.array false 0 (.key [98] (.long 1) .nil)) .nil) false 0 .nil) .nil))) .nil

/-- The inner stream refers to the outer one. -/
theorem not_sound_nestedCalls : ∃ before, before <+: callsActions nestedCalls ∧
    ¬ Sound (run (fun _ => 0) id before .init) := by
  refine ⟨callsActions nestedCalls, List.prefix_rfl, fun sound => ?_⟩
  have inner : ([232, 1, 135, 57, 0, 1, 69, 79, 70], [⟨[98], 57⟩]) ∈
      (run (fun _ => 0) id (callsActions nestedCalls) .init).done.map
        fun stream => (stream.out, stream.refs) := by decide
  obtain ⟨stream, isIn, same⟩ := List.mem_map.1 inner
  obtain ⟨out, refs⟩ := Prod.mk.inj same
  obtain ⟨⟨front, back, text, length⟩, -⟩ := sound.refers stream (List.mem_append_right _ isIn)
    ⟨[98], 57⟩ (refs ▸ List.mem_singleton_self _)
  have behind := congrArg (List.drop 7) (out.symm.trans text)
  rw [append_assoc, List.drop_left' (show front.length = 7 from length)] at behind
  simp [lengthBytes, leBytes] at behind

end PhpExts.Swoole.Serialize
