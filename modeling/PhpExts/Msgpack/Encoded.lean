import PhpExts.Zend.Value
import PhpExts.Msgpack.Packed

/-!
# What the encoder writes for a plain value

`PhpValue.toMsg` is the object the encoder writes for a value without references
and objects: an array becomes a list or a map, as `msgpack_check_ht_is_map`
chooses, and a list has an item for every index below its count. The encoder's
run on a zval that holds the value appends the encoding of that object
(`writes_serialize`): a zval that occurs several times is numbered anew, and no
array is open when it is met, since it would hold itself.
-/

namespace PhpExts.Msgpack

open PhpExts.Zend PhpExts.Library
open Prog (returns_bind returns_read)
open List (map_cons map_map length_map)

/-- A key of an array: an integer is a `long`, a string is not the notation of one. -/
def KeyValid : HashKey → Prop
  | .index h => InLong h
  | .string s => s.length < 2 ^ 32 ∧ handleNumeric .eight s = none

mutual

/-- The numbers are of the engine's types, strings and arrays have their lengths in
32 bits, and the keys of an array are distinct. -/
def Valid : PhpValue → Prop
  | .long l => InLong l
  | .double bits => bits < 2 ^ 64
  | .string s => s.length < 2 ^ 32
  | .array _ entries =>
    entries.length < 2 ^ 32 ∧ (entries.map Prod.fst).Nodup ∧ EntriesValid entries
  | _ => True

def EntriesValid : List (HashKey × PhpValue) → Prop
  | [] => True
  | (key, v) :: rest => KeyValid key ∧ Valid v ∧ EntriesValid rest

end

theorem EntriesValid.of_mem : {entries : List (HashKey × PhpValue)} → EntriesValid entries →
    {entry : HashKey × PhpValue} → entry ∈ entries → KeyValid entry.1 ∧ Valid entry.2
  | (_, _) :: _, valid, entry, mem => by
    rcases List.mem_cons.mp mem with rfl | mem
    · exact ⟨valid.1, valid.2.1⟩
    · exact valid.2.2.of_mem mem

/-- Whether `msgpack_check_ht_is_map` holds for an array with these entries. -/
def asMap (next : Nat) (entries : List (HashKey × PhpValue)) : Bool :=
  checkHtIsMap ⟨entries.map fun entry => (entry.1, 0), next⟩

def listItems (entries : List (HashKey × PhpValue)) : List PhpValue :=
  (List.range entries.length).map fun i => (entries.lookup (.index i)).getD .null

theorem mem_of_lookup {V : Type} {entries : List (HashKey × V)} {key : HashKey} {v : V}
    (found : entries.lookup key = some v) : (key, v) ∈ entries := by
  induction entries with
  | nil => cases found
  | cons entry rest ih =>
    rw [List.lookup_cons] at found
    by_cases same : key = entry.1
    · rw [beq_iff_eq.mpr same] at found
      cases found
      exact same ▸ .head _
    · rw [beq_eq_false_iff_ne.mpr same] at found
      exact .tail _ (ih found)

theorem mem_listItems {entries : List (HashKey × PhpValue)} {v : PhpValue}
    (mem : v ∈ listItems entries) : v = .null ∨ ∃ key, (key, v) ∈ entries := by
  obtain ⟨i, -, rfl⟩ := List.mem_map.mp mem
  cases found : entries.lookup (.index i) with
  | none => exact .inl rfl
  | some v => exact .inr ⟨_, mem_of_lookup found⟩

def keyMsg (useStr8Serialization : Bool) : HashKey → Msg
  | .index h => .scalar (.ofLong h)
  | .string s => .scalar (.ofString useStr8Serialization s)

section

variable (useStr8Serialization : Bool)

mutual

def toMsg : PhpValue → Msg
  | .null => .scalar .nil
  | .bool b => .scalar (if b then .true else .false)
  | .long l => .scalar (.ofLong l)
  | .double bits => .scalar (.number .double bits)
  | .string s => .scalar (.ofString useStr8Serialization s)
  | .array next entries =>
    if entries.length = 0 then .array .fix []
    else if asMap next entries then
      .map (.ofCount entries.length)
        ((toMsgs entries).map fun entry => (keyMsg useStr8Serialization entry.1, entry.2))
    else
      .array (.ofCount entries.length) ((List.range entries.length).map fun i =>
        ((toMsgs entries).lookup (.index i)).getD (.scalar .nil))

def toMsgs : List (HashKey × PhpValue) → List (HashKey × Msg)
  | [] => []
  | (key, v) :: rest => (key, toMsg v) :: toMsgs rest

end

variable {useStr8Serialization}

theorem toMsgs_eq (entries : List (HashKey × PhpValue)) : toMsgs useStr8Serialization entries =
      entries.map fun entry => (entry.1, toMsg useStr8Serialization entry.2) := by
  induction entries with
  | nil => simp only [toMsgs, List.map_nil]
  | cons entry rest ih => simp only [toMsgs, ih, map_cons]

theorem lookup_map {V W : Type} (f : V → W) (entries : List (HashKey × V)) (key : HashKey) :
    (entries.map fun entry => (entry.1, f entry.2)).lookup key = (entries.lookup key).map f := by
  induction entries with
  | nil => rfl
  | cons entry rest ih =>
    obtain ⟨key', v⟩ := entry
    simp only [map_cons, List.lookup_cons]
    cases key == key' with
    | true => rfl
    | false => exact ih

theorem toMsg_null : toMsg useStr8Serialization .null = .scalar .nil := by
  simp only [toMsg]

theorem toMsg_empty {next : Nat} :
    toMsg useStr8Serialization (.array next []) = .array .fix [] := by
  simp [toMsg]

theorem toMsg_map {next : Nat} {entries : List (HashKey × PhpValue)} (nonempty : entries ≠ [])
    (isMap : asMap next entries = true) : toMsg useStr8Serialization (.array next entries) =
      .map (.ofCount entries.length) (entries.map fun entry =>
        (keyMsg useStr8Serialization entry.1, toMsg useStr8Serialization entry.2)) := by
  have some : entries.length ≠ 0 := fun none => nonempty (List.length_eq_zero_iff.mp none)
  simp only [toMsg, some, if_false, isMap, if_true, toMsgs_eq, map_map]
  rfl

theorem toMsg_list {next : Nat} {entries : List (HashKey × PhpValue)} (nonempty : entries ≠ [])
    (isList : asMap next entries = false) : toMsg useStr8Serialization (.array next entries) =
      .array (.ofCount entries.length) ((listItems entries).map (toMsg useStr8Serialization)) := by
  have some : entries.length ≠ 0 := fun none => nonempty (List.length_eq_zero_iff.mp none)
  simp only [toMsg, some, if_false, isList, Bool.false_eq_true, toMsgs_eq, lookup_map, listItems,
    map_map]
  refine congrArg (Msg.array _) (List.map_congr_left fun i _ => ?_)
  simp only [Function.comp_apply]
  cases entries.lookup (.index i) with
  | none => exact toMsg_null.symm
  | some v => rfl

end

/-! ## The encoder's runs -/

section

variable {env : SerializeEnv}

/-- The program appends the bytes to the buffer, and no array is open after it that
was not open before. -/
def Writes (m : Ser Unit) (s : SerializeData) (bytes : Bytes) : Prop :=
  ∃ s', Prog.Returns m s () s' ∧ s'.buffer = s.buffer ++ bytes ∧ s'.applyCount = s.applyCount

variable {s : SerializeData}

theorem writes_append {bytes : Bytes} : Writes (Ser.append bytes) s bytes :=
  ⟨_, Prog.returns_update.mpr rfl, rfl, rfl⟩

theorem writes_pure : Writes (pure ()) s [] :=
  ⟨s, Prog.returns_pure.mpr ⟨rfl, rfl⟩, (List.append_nil _).symm, rfl⟩

theorem Writes.seq {m m' : Ser Unit} {bytes bytes' : Bytes}
    (first : Writes m s bytes) (next : ∀ s', s'.applyCount = s.applyCount → Writes m' s' bytes') :
    Writes (m >>= fun _ => m') s (bytes ++ bytes') := by
  obtain ⟨s₁, run, buffer, counts⟩ := first
  obtain ⟨s₂, run', buffer', counts'⟩ := next s₁ counts
  refine ⟨s₂, Prog.returns_bind.mpr ⟨(), s₁, run, run'⟩, ?_, counts'.trans counts⟩
  rw [buffer', buffer, List.append_assoc]

theorem Writes.after {α : Type} {m : Ser α} {f : α → Ser Unit} {t : SerializeData} {a : α}
    {bytes : Bytes} (run : Prog.Returns m s a t) (buffer : t.buffer = s.buffer)
    (counts : t.applyCount = s.applyCount) (rest : Writes (f a) t bytes) :
    Writes (m >>= f) s bytes := by
  obtain ⟨s₂, run', buffer', counts'⟩ := rest
  exact ⟨s₂, Prog.returns_bind.mpr ⟨a, t, run, run'⟩, buffer'.trans (by rw [buffer]),
    counts'.trans counts⟩

theorem returns_serializeCell {a : Addr} {z : Zval} (cell : env.heap.zvals a = some z)
     : Prog.Returns (serializeCell env a) s z s := by
  rw [serializeCell, cell]
  exact Prog.returns_pure.mpr ⟨rfl, rfl⟩

def Closed (h : Heap) (s : SerializeData) (depth : Nat) : Prop :=
  ∀ a v, Denotes h (fun _ => True) a v → v.depth < depth → s.applyCount a = 0

theorem Closed.congr {h : Heap} {s' : SerializeData} {depth : Nat} (closed : Closed h s depth)
    (counts : s'.applyCount = s.applyCount) : Closed h s' depth :=
  fun a v denotes less => by rw [counts]; exact closed a v denotes less

theorem Closed.mono {h : Heap} {depth depth' : Nat}
    (closed : Closed h s depth) (le : depth' ≤ depth) : Closed h s depth' :=
  fun a v denotes less => closed a v denotes (Nat.lt_of_lt_of_le less le)

theorem cell_of_value {h : Heap} {a : Addr} {value : ZValue} (holds : h.value a = some value) :
    ∃ z, h.zvals a = some z ∧ z.value = value := by
  rw [Heap.value] at holds
  exact Option.map_eq_some_iff.mp holds

theorem isRef_of_cell {h : Heap} {a : Addr} {z : Zval} (plain : h.isRef a = false)
    (cell : h.zvals a = some z) : z.isRef = false := by
  rwa [Heap.isRef, cell] at plain

theorem scalar_cell {h : Heap} {region : Addr → Prop} {a : Addr} {v : PhpValue} {value : ZValue}
    (scalar : v.scalar = some value) (denotes : Denotes h region a v) :
    ∃ z, h.zvals a = some z ∧ z.isRef = false ∧ z.value = value := by
  obtain ⟨-, isRef, holds⟩ := (denotes_scalar scalar).mp denotes
  obtain ⟨z, cell, value⟩ := cell_of_value holds
  exact ⟨z, cell, isRef_of_cell isRef cell, value⟩

section

variable {serializeZval : Addr → Ser Unit}

/-- The encoder writes a value wherever it is met, as long as no array it holds is
open. -/
def WritesValue (env : SerializeEnv) (serializeZval : Addr → Ser Unit) (a : Addr)
    (v : PhpValue) : Prop :=
  ∀ s, Closed env.heap s v.depth →
    Writes (serializeZval a) s (toMsg env.useStr8Serialization v).bytes

theorem writes_serializeElement {a : Addr} {v : PhpValue}
    (denotes : Denotes env.heap (fun _ => True) a v) (writes : WritesValue env serializeZval a v)
    {s : SerializeData} (closed : Closed env.heap s (v.depth + 1)) :
    Writes (serializeElement env serializeZval a) s (toMsg env.useStr8Serialization v).bytes := by
  cases v with
  | array next entries =>
    have deep := denotes
    simp only [Denotes] at denotes
    obtain ⟨-, -, buckets, holds, -⟩ := denotes
    obtain ⟨z, cell, value⟩ := cell_of_value holds
    have unopened : s.applyCount a = 0 := closed a _ deep (Nat.lt_succ_self _)
    have opened : Closed env.heap
        { s with applyCount := Function.update s.applyCount a (s.applyCount a + 1) }
        (PhpValue.array next entries).depth := by
      intro b w denotes less
      by_cases same : b = a
      · subst same
        rw [Denotes.unique w denotes deep] at less
        exact absurd less (Nat.lt_irrefl _)
      · simp only [Function.update_of_ne same]
        exact closed b w denotes (Nat.lt_succ_of_lt less)
    obtain ⟨s', run, buffer, counts⟩ := writes _ opened
    refine ⟨{ s' with applyCount := Function.update s'.applyCount a (s'.applyCount a - 1) },
      ?_, buffer, ?_⟩
    · simp only [serializeElement, returns_bind]
      refine ⟨z, s, returns_serializeCell cell, ?_⟩
      rw [value]
      simp only [returns_bind, returns_read]
      refine ⟨s, s, ⟨rfl, rfl⟩, ?_⟩
      rw [if_neg (by omega)]
      simp only [Ser.modifyApplyCount, returns_bind, Prog.returns_update]
      exact ⟨(), _, rfl, (), s', run, rfl⟩
    · simp only [counts]
      funext b
      by_cases same : b = a
      · subst same
        simp
      · simp [Function.update_of_ne same]
  | _ =>
    simp only [Denotes, PhpValue.scalar] at denotes
    obtain ⟨z, cell, value⟩ := cell_of_value denotes.2.2
    have written := writes s (closed.mono (Nat.le_succ _))
    obtain ⟨s', run, rest⟩ := written
    refine ⟨s', ?_, rest⟩
    simp only [serializeElement, returns_bind]
    refine ⟨z, s, returns_serializeCell cell, ?_⟩
    rw [value]
    exact run

theorem packKey_eq {key : HashKey} (valid : KeyValid key) :
    packKey env key = (keyMsg env.useStr8Serialization key).bytes := by
  cases key with
  | index h => exact (packLong_eq valid).bytes
  | string s => exact packString_eq valid.1

theorem writes_serializeEntries :
    (entries : List (HashKey × PhpValue)) → {buckets : List (HashKey × Addr)} →
    DenoteEntries env.heap (fun _ => True) buckets entries → EntriesValid entries →
    (∀ a v, Denotes env.heap (fun _ => True) a v → Valid v → v.depth ≤ entriesDepth entries →
      WritesValue env serializeZval a v) → {last : Option Bytes} → {s : SerializeData} →
    Closed env.heap s (entriesDepth entries + 1) →
    Writes (serializeEntries env serializeZval true false last buckets) s
      (pairsBytes (entries.map fun entry =>
        (keyMsg env.useStr8Serialization entry.1, toMsg env.useStr8Serialization entry.2)))
  | [], _, filled, _, _, _, _, _ => by
    simp only [DenoteEntries] at filled
    rw [filled]
    exact writes_pure
  | (key, v) :: rest, _, filled, valid, each, last, s, closed => by
    simp only [DenoteEntries] at filled
    obtain ⟨a, buckets, rfl, denotes, filled⟩ := filled
    simp only [entriesDepth] at closed each
    have first : v.depth + 1 ≤ max v.depth (entriesDepth rest) + 1 :=
      Nat.succ_le_succ (le_max_left _ _)
    have others : entriesDepth rest + 1 ≤ max v.depth (entriesDepth rest) + 1 :=
      Nat.succ_le_succ (le_max_right _ _)
    simp only [serializeEntries, isMagicMember, Bool.false_eq_true, if_false, pure_bind,
      if_true, map_cons, pairsBytes]
    rw [← packKey_eq valid.1]
    refine writes_append.seq fun s₁ counts₁ => ?_
    refine (writes_serializeElement denotes (each a v denotes valid.2.1 (le_max_left _ _))
      ((closed.congr counts₁).mono first)).seq fun s₂ counts₂ => ?_
    exact writes_serializeEntries rest filled valid.2.2
      (fun b w denotes valid le => each b w denotes valid (le_max_of_le_right le))
      ((closed.congr (counts₂.trans counts₁)).mono others)

variable {entries : List (HashKey × PhpValue)}

theorem writes_serializeList (table : HashTable Addr)
    (filled : DenoteEntries env.heap (fun _ => True) table.buckets entries)
    (valid : EntriesValid entries) (each : ∀ a v, Denotes env.heap (fun _ => True) a v → Valid v →
      v.depth ≤ entriesDepth entries → WritesValue env serializeZval a v)
    (n : Nat) {i : Nat} {s : SerializeData} (closed : Closed env.heap s (entriesDepth entries + 1)) :
    Writes (serializeList env serializeZval table i n) s (itemsBytes ((List.range' i n).map fun j =>
        toMsg env.useStr8Serialization ((entries.lookup (.index j)).getD .null))) := by
  induction n generalizing i s with
  | zero => exact writes_pure
  | succ n ih =>
    simp only [serializeList, List.range'_succ, map_cons, itemsBytes]
    have rest : ∀ s' : SerializeData, s'.applyCount = s.applyCount →
        Writes (serializeList env serializeZval table (i + 1) n) s'
          (itemsBytes ((List.range' (i + 1) n).map fun j =>
            toMsg env.useStr8Serialization ((entries.lookup (.index j)).getD .null))) :=
      fun s' counts => ih (closed.congr counts)
    rcases DenoteEntries.lookup (.index i) entries filled with ⟨absent, none⟩ | ⟨a, v, found, some, denotes⟩
    · rw [HashTable.find, absent, none]
      simp only [Option.getD_none, toMsg_null]
      exact writes_append.seq rest
    · rw [HashTable.find, found, some]
      simp only [Option.getD_some]
      have mem := mem_of_lookup some
      have depth := depth_of_mem entries mem
      exact (writes_serializeElement denotes
        (each a v denotes (valid.of_mem mem).2 depth)
        (closed.mono (Nat.succ_le_succ depth))).seq rest

theorem checkHtIsMap_eq {buckets : List (HashKey × Addr)} {next : Nat}
     {h : Heap} {region : Addr → Prop} (filled : DenoteEntries h region buckets entries) :
    checkHtIsMap ⟨buckets, next⟩ = asMap next entries := by
  have keys := filled.keys
  have length : buckets.length = entries.length := by
    simpa using congrArg List.length keys
  simp only [checkHtIsMap, asMap, HashTable.numElements, HashTable.keys, length, keys,
    length_map, map_map, Function.comp_def]

theorem writes_serializeArray {buckets : List (HashKey × Addr)} {next : Nat}
    (filled : DenoteEntries env.heap (fun _ => True) buckets entries)
    (valid : Valid (.array next entries))
    (each : ∀ a v, Denotes env.heap (fun _ => True) a v → Valid v →
      v.depth ≤ entriesDepth entries → WritesValue env serializeZval a v)
    {s : SerializeData} (closed : Closed env.heap s (entriesDepth entries + 1)) :
    Writes (serializeArray env serializeZval ⟨buckets, next⟩ false) s
      (toMsg env.useStr8Serialization (.array next entries)).bytes := by
  simp only [Valid] at valid
  have length : buckets.length = entries.length := by
    simpa using congrArg List.length filled.keys
  simp only [serializeArray, HashTable.numElements, length, checkHtIsMap_eq filled,
    Bool.false_eq_true, false_and, if_false]
  cases entries with
  | nil =>
    rw [toMsg_empty]
    exact writes_append
  | cons entry rest =>
    have nonempty : entry :: rest ≠ [] := List.cons_ne_nil _ _
    rw [if_neg (by simp)]
    cases isMap : asMap next (entry :: rest) with
    | true =>
      rw [toMsg_map nonempty isMap, if_pos rfl, packMap_eq valid.1]
      simp only [Msg.bytes, length_map]
      exact writes_append.seq fun s' counts =>
        writes_serializeEntries _ filled valid.2.2 each (closed.congr counts)
    | false =>
      rw [toMsg_list nonempty isMap, if_neg Bool.false_ne_true, packArray_eq valid.1]
      simp only [Msg.bytes, length_map, listItems, List.length_range]
      refine writes_append.seq fun s' counts => ?_
      have written := writes_serializeList ⟨buckets, next⟩ filled valid.2.2 each
        (entry :: rest).length (i := 0) (closed.congr counts)
      rw [← List.range_eq_range'] at written
      simpa only [map_map, Function.comp_def] using written

end

theorem writes_varAdd {serializeZval : Addr → Ser Unit} {a : Addr} {z : Zval}
    (plain : z.isRef = false) (noObject : ∀ o, z.value ≠ .object o) {s : SerializeData}
    {bytes : Bytes}
    (writes : ∀ s', s'.applyCount = s.applyCount → Writes (serializeValue env serializeZval z) s' bytes) :
    Writes (varAdd env a z >>= serializeAdded env serializeZval z) s bytes := by
  have none : backReference z = fun _ => none := by
    funext varNo
    rw [backReference]
    split
    · rw [plain]
      rfl
    · rename_i o value
      exact absurd value (noObject o)
    · rfl
  rw [varAdd]
  cases varKey env a z.value with
  | none =>
    rw [pure_bind]
    exact writes s rfl
  | some key =>
    by_cases known : some key ∈ s.varHash
    · refine Writes.after (t := { s with varHash := s.varHash ++ [Option.none] })
        (a := .already (s.varHash.idxOf (some key) + 1)) ?_ rfl rfl ?_
      · simp only [returns_bind, returns_read]
        refine ⟨s, s, ⟨rfl, rfl⟩, ?_⟩
        rw [if_pos known, plain, if_neg Bool.false_ne_true]
        simp only [returns_bind, Prog.returns_update, Prog.returns_pure]
        exact ⟨(), _, rfl, trivial, rfl⟩
      · rw [serializeAdded, none]
        exact writes _ rfl
    · refine Writes.after (t := { s with varHash := s.varHash ++ [some key] }) (a := VarAdd.added) ?_
        rfl rfl (show Writes (serializeValue env serializeZval z) _ bytes from writes _ rfl)
      simp only [returns_bind, returns_read]
      refine ⟨s, s, ⟨rfl, rfl⟩, ?_⟩
      rw [if_neg known]
      simp only [returns_bind, Prog.returns_update, Prog.returns_pure]
      exact ⟨(), _, rfl, trivial, rfl⟩

/-- **The encoder writes the encoding of a value's object**, given more fuel than
arrays are nested. -/
theorem writes_serializeZval (phpOnly : env.phpOnly = true) (fuel : Nat) {a : Addr} {v : PhpValue}
    (enough : v.depth < fuel) (valid : Valid v) (denotes : Denotes env.heap (fun _ => True) a v) :
    WritesValue env (serializeZval env fuel) a v := by
  induction fuel generalizing a v with
  | zero => exact absurd enough (Nat.not_lt_zero _)
  | succ fuel ih =>
    intro s closed
    have body {z : Zval} (cell : env.heap.zvals a = some z) (plain : z.isRef = false)
        (noObject : ∀ o, z.value ≠ .object o)
        (writes : ∀ s', s'.applyCount = s.applyCount →
          Writes (serializeValue env (serializeZval env fuel) z) s'
            (toMsg env.useStr8Serialization v).bytes) :
        Writes (serializeZval env (fuel + 1) a) s (toMsg env.useStr8Serialization v).bytes := by
      obtain ⟨s', run, rest⟩ := writes_varAdd (a := a) plain noObject writes
      obtain ⟨result, s₁, numbered, run⟩ := Prog.returns_bind.mp run
      refine ⟨s', ?_, rest⟩
      simp only [serializeZval, serializeZvalBody, returns_bind, returns_read,
        Prog.returns_announce]
      refine ⟨s, s, ⟨rfl, rfl⟩, (), s, rfl, z, s, returns_serializeCell cell, ?_⟩
      rw [if_pos phpOnly]
      simp only [returns_bind, Prog.returns_announce]
      exact ⟨result, s₁, numbered, (), s', run, rfl⟩
    cases v with
    | array next entries =>
      simp only [Denotes] at denotes
      obtain ⟨-, isRef, buckets, holds, filled⟩ := denotes
      obtain ⟨z, cell, value⟩ := cell_of_value holds
      have plain := isRef_of_cell isRef cell
      simp only [PhpValue.depth] at enough closed
      refine body cell plain (by simp [value]) fun s' counts => ?_
      rw [serializeValue, value, plain]
      exact writes_serializeArray filled valid
        (fun b w denotes valid le => ih (by omega) valid denotes) (closed.congr counts)
    | null =>
      obtain ⟨z, cell, plain, value⟩ := scalar_cell rfl denotes
      refine body cell plain (by simp [value]) fun s' _ => ?_
      rw [serializeValue, value]
      exact writes_append
    | bool b =>
      obtain ⟨z, cell, plain, value⟩ := scalar_cell rfl denotes
      refine body cell plain (by simp [value]) fun s' _ => ?_
      rw [serializeValue, value]
      cases b <;> exact writes_append
    | long l =>
      obtain ⟨z, cell, plain, value⟩ := scalar_cell rfl denotes
      refine body cell plain (by simp [value]) fun s' _ => ?_
      rw [serializeValue, value]
      simp only [toMsg, Msg.bytes]
      rw [← (packLong_eq valid).bytes]
      exact writes_append
    | double bits =>
      obtain ⟨z, cell, plain, value⟩ := scalar_cell rfl denotes
      refine body cell plain (by simp [value]) fun s' _ => ?_
      rw [serializeValue, value]
      exact writes_append
    | string str =>
      obtain ⟨z, cell, plain, value⟩ := scalar_cell rfl denotes
      refine body cell plain (by simp [value]) fun s' _ => ?_
      rw [serializeValue, value]
      simp only [toMsg, Msg.bytes]
      rw [← packString_eq valid]
      exact writes_append

theorem writes_serialize (phpOnly : env.phpOnly = true) {fuel : Nat} {region : Addr → Prop}
    {a : Addr} {v : PhpValue} (enough : v.depth < fuel) (valid : Valid v)
    (denotes : Denotes env.heap region a v) : (serialize env fuel a).result = .ok () ∧
      (serialize env fuel a).state.buffer = (toMsg env.useStr8Serialization v).bytes := by
  have everywhere := Denotes.frame (fun _ _ => rfl) (fun _ _ => trivial) v denotes
  obtain ⟨s', run, buffer, -⟩ :=
    writes_serializeZval phpOnly fuel enough valid everywhere serializeInit fun _ _ _ _ => rfl
  exact ⟨run.1, by rw [serialize, run.2, buffer]; rfl⟩

end

/-! ## The object is well-formed -/

/-- The numbers and lengths of an object fit, and no empty string has the header
`0xd9`. -/
structure Msg.WellFormed (m : Msg) : Prop where
  fits : m.Fits
  spans : ∀ offset, ∀ span ∈ m.raw8Spans offset, span.1 + 2 < span.2

theorem wellFormed_array {w : CountWidth} {items : List Msg} (count : items.length < w.limit)
    (each : ∀ m ∈ items, m.WellFormed) : (Msg.array w items).WellFormed := by
  have fits : ∀ items : List Msg, (∀ m ∈ items, m.WellFormed) → ItemsFit items := by
    intro items each
    induction items with
    | nil => trivial
    | cons m rest ih =>
      exact ⟨(each m (.head _)).fits,
        ih fun m mem => each m (.tail _ mem)⟩
  have spans : ∀ items : List Msg, (∀ m ∈ items, m.WellFormed) → ∀ offset,
      ∀ span ∈ itemsRaw8Spans offset items, span.1 + 2 < span.2 := by
    intro items each
    induction items with
    | nil => intro _ _ mem; cases mem
    | cons m rest ih =>
      intro offset span mem
      rcases List.mem_append.mp mem with here | there
      · exact (each m (.head _)).spans offset span here
      · exact ih (fun m mem => each m (.tail _ mem)) _ span there
  exact ⟨⟨count, fits items each⟩, fun offset => spans items each _⟩

theorem wellFormed_map {w : CountWidth} {pairs : List (Msg × Msg)} (count : pairs.length < w.limit)
    (each : ∀ pair ∈ pairs, pair.1.WellFormed ∧ pair.2.WellFormed) :
    (Msg.map w pairs).WellFormed := by
  have fits : ∀ pairs : List (Msg × Msg),
      (∀ pair ∈ pairs, pair.1.WellFormed ∧ pair.2.WellFormed) → PairsFit pairs := by
    intro pairs each
    induction pairs with
    | nil => trivial
    | cons pair rest ih =>
      obtain ⟨key, val⟩ := each pair (.head _)
      exact ⟨key.fits, val.fits, ih fun pair mem => each pair (.tail _ mem)⟩
  have spans : ∀ pairs : List (Msg × Msg),
      (∀ pair ∈ pairs, pair.1.WellFormed ∧ pair.2.WellFormed) → ∀ offset,
      ∀ span ∈ pairsRaw8Spans offset pairs, span.1 + 2 < span.2 := by
    intro pairs each
    induction pairs with
    | nil => intro _ _ mem; cases mem
    | cons pair rest ih =>
      intro offset span mem
      obtain ⟨key, val⟩ := each pair (.head _)
      rcases List.mem_append.mp mem with here | there
      · exact key.spans offset span here
      · rcases List.mem_append.mp there with here | there
        · exact val.spans _ span here
        · exact ih (fun pair mem => each pair (.tail _ mem)) _ span there
  exact ⟨⟨count, fits pairs each⟩, fun offset => spans pairs each _⟩

theorem wellFormed_scalar {x : Scalar} (fits : x.Fits)
    (spans : ∀ offset, ∀ span ∈ x.raw8Spans offset, span.1 + 2 < span.2) :
    (Msg.scalar x).WellFormed := ⟨fits, spans⟩

theorem wellFormed_ofLong {d : Int} (range : InLong d) : (Msg.scalar (.ofLong d)).WellFormed := by
  refine wellFormed_scalar (packLong_eq range).fits fun offset span mem => ?_
  have none : (Scalar.ofLong d).raw8Spans offset = [] := by
    unfold Scalar.ofLong
    repeat' split
    all_goals rfl
  rw [none] at mem
  cases mem

theorem wellFormed_ofString {str8 : Bool} {s : Bytes} (small : s.length < 2 ^ 32) :
    (Msg.scalar (.ofString str8 s)).WellFormed := by
  refine wellFormed_scalar (Scalar.fits_ofString small) fun offset span mem => ?_
  rw [Scalar.ofString] at mem
  cases width : RawWidth.ofLength str8 s.length with
  | w8 =>
    have long := RawWidth.length_of_w8 width
    rw [width] at mem
    rw [List.mem_singleton.mp mem]
    simp only
    omega
  | _ =>
    rw [width] at mem
    cases mem

mutual

theorem wellFormed_toMsg {str8 : Bool} : (v : PhpValue) → Valid v → (toMsg str8 v).WellFormed
  | .null, _ => wellFormed_scalar trivial nofun
  | .bool b, _ => by
    cases b <;> exact wellFormed_scalar trivial nofun
  | .long l, valid => wellFormed_ofLong valid
  | .double bits, valid => by
    simp only [Valid] at valid
    exact wellFormed_scalar (show bits < 256 ^ 8 by omega) nofun
  | .string s, valid => wellFormed_ofString valid
  | .array next entries, valid => by
    simp only [Valid] at valid
    obtain ⟨small, -, valid⟩ := valid
    have each := wellFormed_toMsgs str8 entries valid
    by_cases empty : entries = []
    · rw [empty, toMsg_empty]
      exact wellFormed_array (by decide) nofun
    have limit := CountWidth.lt_limit_ofCount small
    cases isMap : asMap next entries with
    | true =>
      rw [toMsg_map empty isMap]
      refine wellFormed_map (by rwa [length_map]) fun pair mem => ?_
      obtain ⟨entry, among, rfl⟩ := List.mem_map.mp mem
      exact each entry among
    | false =>
      rw [toMsg_list empty isMap]
      refine wellFormed_array (by simpa [listItems] using limit) fun m mem => ?_
      obtain ⟨v, among, rfl⟩ := List.mem_map.mp mem
      rcases mem_listItems among with rfl | ⟨key, stored⟩
      · rw [toMsg_null]
        exact wellFormed_scalar trivial nofun
      · exact (each _ stored).2

theorem wellFormed_toMsgs (str8 : Bool) : (entries : List (HashKey × PhpValue)) →
    EntriesValid entries → ∀ entry ∈ entries,
      (keyMsg str8 entry.1).WellFormed ∧ (toMsg str8 entry.2).WellFormed
  | [], _, _, mem => by cases mem
  | (key, v) :: rest, valid, entry, mem => by
    rcases List.mem_cons.mp mem with rfl | mem
    · refine ⟨?_, wellFormed_toMsg v valid.2.1⟩
      cases key with
      | index h => exact wellFormed_ofLong valid.1
      | string s => exact wellFormed_ofString valid.1.1
    · exact wellFormed_toMsgs str8 rest valid.2.2 entry mem

end

end PhpExts.Msgpack
