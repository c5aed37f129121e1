import PhpExts.Redis.ClusterMultiKey

/-!
# Slots of keys

A key belongs to a slot of the cluster, by the CRC of the bytes between its first opening brace and the
first closing one behind that, or of the whole key where there are no such bytes. A read outside of the
key has no result here.

`cluster_dist_add_key` sorts keys by their slots, in an order that is that of their arrival, unless it
meets a slot without a node, where it changes nothing (`distribute_spec`).
-/

namespace PhpExts.Redis.HashSlot

open PhpExts.Redis.Cluster (redisKeyPrefix)
open Option (bind_eq_bind bind_some)

abbrev Key := List UInt8

def crc16tab : Array UInt16 := #[
    0x0000, 0x1021, 0x2042, 0x3063, 0x4084, 0x50a5, 0x60c6, 0x70e7, 0x8108, 0x9129, 0xa14a, 0xb16b,
    0xc18c, 0xd1ad, 0xe1ce, 0xf1ef, 0x1231, 0x0210, 0x3273, 0x2252, 0x52b5, 0x4294, 0x72f7, 0x62d6,
    0x9339, 0x8318, 0xb37b, 0xa35a, 0xd3bd, 0xc39c, 0xf3ff, 0xe3de, 0x2462, 0x3443, 0x0420, 0x1401,
    0x64e6, 0x74c7, 0x44a4, 0x5485, 0xa56a, 0xb54b, 0x8528, 0x9509, 0xe5ee, 0xf5cf, 0xc5ac, 0xd58d,
    0x3653, 0x2672, 0x1611, 0x0630, 0x76d7, 0x66f6, 0x5695, 0x46b4, 0xb75b, 0xa77a, 0x9719, 0x8738,
    0xf7df, 0xe7fe, 0xd79d, 0xc7bc, 0x48c4, 0x58e5, 0x6886, 0x78a7, 0x0840, 0x1861, 0x2802, 0x3823,
    0xc9cc, 0xd9ed, 0xe98e, 0xf9af, 0x8948, 0x9969, 0xa90a, 0xb92b, 0x5af5, 0x4ad4, 0x7ab7, 0x6a96,
    0x1a71, 0x0a50, 0x3a33, 0x2a12, 0xdbfd, 0xcbdc, 0xfbbf, 0xeb9e, 0x9b79, 0x8b58, 0xbb3b, 0xab1a,
    0x6ca6, 0x7c87, 0x4ce4, 0x5cc5, 0x2c22, 0x3c03, 0x0c60, 0x1c41, 0xedae, 0xfd8f, 0xcdec, 0xddcd,
    0xad2a, 0xbd0b, 0x8d68, 0x9d49, 0x7e97, 0x6eb6, 0x5ed5, 0x4ef4, 0x3e13, 0x2e32, 0x1e51, 0x0e70,
    0xff9f, 0xefbe, 0xdfdd, 0xcffc, 0xbf1b, 0xaf3a, 0x9f59, 0x8f78, 0x9188, 0x81a9, 0xb1ca, 0xa1eb,
    0xd10c, 0xc12d, 0xf14e, 0xe16f, 0x1080, 0x00a1, 0x30c2, 0x20e3, 0x5004, 0x4025, 0x7046, 0x6067,
    0x83b9, 0x9398, 0xa3fb, 0xb3da, 0xc33d, 0xd31c, 0xe37f, 0xf35e, 0x02b1, 0x1290, 0x22f3, 0x32d2,
    0x4235, 0x5214, 0x6277, 0x7256, 0xb5ea, 0xa5cb, 0x95a8, 0x8589, 0xf56e, 0xe54f, 0xd52c, 0xc50d,
    0x34e2, 0x24c3, 0x14a0, 0x0481, 0x7466, 0x6447, 0x5424, 0x4405, 0xa7db, 0xb7fa, 0x8799, 0x97b8,
    0xe75f, 0xf77e, 0xc71d, 0xd73c, 0x26d3, 0x36f2, 0x0691, 0x16b0, 0x6657, 0x7676, 0x4615, 0x5634,
    0xd94c, 0xc96d, 0xf90e, 0xe92f, 0x99c8, 0x89e9, 0xb98a, 0xa9ab, 0x5844, 0x4865, 0x7806, 0x6827,
    0x18c0, 0x08e1, 0x3882, 0x28a3, 0xcb7d, 0xdb5c, 0xeb3f, 0xfb1e, 0x8bf9, 0x9bd8, 0xabbb, 0xbb9a,
    0x4a75, 0x5a54, 0x6a37, 0x7a16, 0x0af1, 0x1ad0, 0x2ab3, 0x3a92, 0xfd2e, 0xed0f, 0xdd6c, 0xcd4d,
    0xbdaa, 0xad8b, 0x9de8, 0x8dc9, 0x7c26, 0x6c07, 0x5c64, 0x4c45, 0x3ca2, 0x2c83, 0x1ce0, 0x0cc1,
    0xef1f, 0xff3e, 0xcf5d, 0xdf7c, 0xaf9b, 0xbfba, 0x8fd9, 0x9ff8, 0x6e17, 0x7e36, 0x4e55, 0x5e74,
    0x2e93, 0x3eb2, 0x0ed1, 0x1ef0]

/-- `crc16`. -/
def crc16 (buf : List UInt8) : UInt16 :=
  buf.foldl (fun crc byte =>
    (crc <<< 8) ^^^ crc16tab.getD (((crc >>> 8) ^^^ byte.toUInt16) &&& 0xff).toNat 0) 0

/-- A loop of `cluster_hash_key`, from `i` to the first `byte` or to the end. -/
def scan (key : Key) (len : Nat) (byte : UInt8) (i : Nat) : Option Nat :=
  if i < len then
    match key[i]? with
    | none => none
    | some found => if found = byte then some i else scan key len byte (i + 1)
  else some i
termination_by len - i

/-- `len` bytes from `i` on. -/
def readBytes (key : Key) (i len : Nat) : Option (List UInt8) :=
  if i + len ≤ key.length then some ((key.drop i).take len) else none

def clusterHashKey (key : Key) (len : Nat) : Option UInt16 := do
  let s ← scan key len 123 0
  if s = len then return crc16 (← readBytes key 0 len) &&& 0x3fff
  let e ← scan key len 125 (s + 1)
  if e = len ∨ e = s + 1 then return crc16 (← readBytes key 0 len) &&& 0x3fff
  return crc16 (← readBytes key (s + 1) (e - s - 1)) &&& 0x3fff

/-- `clusterDistList`, with the keys of its entries. -/
structure DistList where
  entry : List Key
  size : Nat

def clusterDlCreate : DistList := ⟨[], 8⟩

/-- `cluster_dl_add_key`; an entry behind the array has no result. -/
def clusterDlAddKey (dl : DistList) (key : Key) : Option DistList :=
  let size := if dl.entry.length = dl.size then dl.size * 2 else dl.size
  if dl.entry.length < size then some ⟨dl.entry ++ [key], size⟩ else none

/-- What `cluster_dist_add_key` reads of `redisCluster`: the prefix, and which slots have a node. -/
structure Cluster where
  keyPrefix : Option Key
  master : Nat → Bool

abbrev Table := Nat → Option DistList

/-- `cluster_dist_add_key`, with whether it succeeds. -/
def clusterDistAddKey (c : Cluster) (ht : Table) (key : Key) : Option (Bool × Table) := do
  let key := redisKeyPrefix c.keyPrefix key
  let slot ← clusterHashKey key key.length
  if c.master slot.toNat = false then return (false, ht)
  let dl := (ht slot.toNat).getD clusterDlCreate
  return (true, Function.update ht slot.toNat (some (← clusterDlAddKey dl key)))

def distribute (c : Cluster) (ht : Table) : List Key → Option (Bool × Table)
  | [] => some (true, ht)
  | key :: keys =>
    match clusterDistAddKey c ht key with
    | none => none
    | some (false, ht) => some (false, ht)
    | some (true, ht) => distribute c ht keys

def HasTag (key tag : Key) : Prop :=
  tag ≠ [] ∧ 125 ∉ tag ∧ ∃ front back, key = front ++ 123 :: (tag ++ 125 :: back) ∧ 123 ∉ front

def slotOf (text : List UInt8) : UInt16 := crc16 text &&& 0x3fff

structure Slotted (key : Key) (slot : UInt16) : Prop where
  tagged : ∀ tag, HasTag key tag → slot = slotOf tag
  whole : (∀ tag, ¬HasTag key tag) → slot = slotOf key

section

variable {key : Key} {byte : UInt8}

theorem scan_spec (key : Key) (byte : UInt8) (i : Nat) (bound : i ≤ key.length) :
    (byte ∉ key.drop i ∧ scan key key.length byte i = some key.length) ∨
      ∃ middle back, key.drop i = middle ++ byte :: back ∧ byte ∉ middle ∧
        scan key key.length byte i = some (i + middle.length) := by
  induction left : key.length - i generalizing i with
  | zero =>
    left
    have done : i = key.length := by omega
    rw [scan, if_neg (by omega), done, List.drop_length]
    exact ⟨List.not_mem_nil, rfl⟩
  | succ left ih =>
    have inside : i < key.length := by omega
    rw [scan, if_pos inside, List.getElem?_eq_getElem inside, List.drop_eq_getElem_cons inside]
    dsimp only
    by_cases here : key[i] = byte
    · right
      rw [if_pos here]
      exact ⟨[], key.drop (i + 1), by rw [here]; rfl, List.not_mem_nil, rfl⟩
    · rw [if_neg here]
      rcases ih (i + 1) inside (by omega) with ⟨none_, result⟩ | ⟨middle, back, split, none_, result⟩
      · left
        refine ⟨fun isThere => ?_, result⟩
        rcases List.mem_cons.mp isThere with same | later
        · exact here same.symm
        · exact none_ later
      · right
        refine ⟨key[i] :: middle, back, by rw [split]; rfl, fun isThere => ?_, ?_⟩
        · rcases List.mem_cons.mp isThere with same | later
          · exact here same.symm
          · exact none_ later
        · rw [result, List.length_cons]
          congr 1
          omega

theorem cut_unique {front front' back back' : List UInt8}
    (same : front ++ byte :: back = front' ++ byte :: back') (not_front : byte ∉ front)
    (not_front' : byte ∉ front') : front = front' ∧ back = back' := by
  induction front generalizing front' with
  | nil =>
    cases front' with
    | nil => exact ⟨rfl, (List.cons.inj same).2⟩
    | cons first rest =>
      have isFirst : byte = first := (List.cons.inj same).1
      rw [isFirst] at not_front'
      exact absurd (.head _) not_front'
  | cons first rest ih =>
    cases front' with
    | nil =>
      have isFirst : first = byte := (List.cons.inj same).1
      rw [← isFirst] at not_front
      exact absurd (.head _) not_front
    | cons first' rest' =>
      obtain ⟨rfl, tails⟩ := List.cons.inj same
      obtain ⟨rfl, backs⟩ := ih tails (fun isThere => not_front (.tail _ isThere))
        fun isThere => not_front' (.tail _ isThere)
      exact ⟨rfl, backs⟩

theorem HasTag.unique {tag tag' : Key} (has : HasTag key tag) (has' : HasTag key tag') :
    tag = tag' := by
  obtain ⟨-, not_tag, front, back, split, not_front⟩ := has
  obtain ⟨-, not_tag', front', back', split', not_front'⟩ := has'
  obtain ⟨-, same⟩ := cut_unique (split.symm.trans split') not_front not_front'
  exact (cut_unique same not_tag not_tag').1

theorem readBytes_all (key : Key) : readBytes key 0 key.length = some key := by
  rw [readBytes, if_pos (Nat.zero_add _).le, List.drop_zero, List.take_length]

theorem readBytes_middle (front middle back : List UInt8) :
    readBytes (front ++ (middle ++ back)) front.length middle.length = some middle := by
  rw [readBytes, if_pos (by simp), List.drop_left, List.take_left]

theorem slotOf_lt (text : List UInt8) : (slotOf text).toNat < 16384 := by
  rw [slotOf, UInt16.toNat_and]
  exact Nat.lt_of_le_of_lt Nat.and_le_right (by decide)

/-- **The slot is that of the tag, and no byte outside of the key is read.** -/
theorem clusterHashKey_spec (key : Key) :
    ∃ slot, clusterHashKey key key.length = some slot ∧ Slotted key slot ∧ slot.toNat < 16384 := by
  have whole : (∀ tag, ¬HasTag key tag) → Slotted key (slotOf key) := fun none_ =>
    ⟨fun tag has => absurd has (none_ tag), fun _ => rfl⟩
  rcases scan_spec key 123 0 (Nat.zero_le _) with ⟨no_brace, first⟩ | ⟨front, rest, split, not_front, first⟩
  · refine ⟨slotOf key, ?_, whole fun tag has => ?_, slotOf_lt key⟩
    · simp only [clusterHashKey, first, bind_eq_bind, bind_some, if_true,
        readBytes_all]
      rfl
    · obtain ⟨-, -, front, back, rfl, -⟩ := has
      apply no_brace
      simp
  rw [List.drop_zero] at split
  rw [Nat.zero_add] at first
  have length : key.length = front.length + 1 + rest.length := by
    rw [split, List.length_append, List.length_cons]
    omega
  have behind : key.drop (front.length + 1) = rest := by
    rw [split, ← List.drop_drop, List.drop_left]
    rfl
  have inside : front.length ≠ key.length := by omega
  rcases scan_spec key 125 (front.length + 1) (by omega) with
    ⟨no_brace, second⟩ | ⟨middle, back, split', not_middle, second⟩
  · rw [behind] at no_brace
    refine ⟨slotOf key, ?_, whole fun tag has => ?_, slotOf_lt key⟩
    · simp only [clusterHashKey, first, second, bind_eq_bind, bind_some, if_neg inside,
        true_or, if_true, readBytes_all]
      rfl
    · obtain ⟨-, -, front', back', split', not_front'⟩ := has
      obtain ⟨-, rfl⟩ := cut_unique (split.symm.trans split') not_front not_front'
      apply no_brace
      simp
  rw [behind] at split'
  have unique : ∀ tag, HasTag key tag → tag = middle := by
    rintro tag ⟨-, not_tag, front', back', split'', not_front'⟩
    obtain ⟨-, rfl⟩ := cut_unique (split.symm.trans split'') not_front not_front'
    exact (cut_unique split' not_tag not_middle).1
  cases middle with
  | nil =>
    refine ⟨slotOf key, ?_, whole fun tag has => has.1 (unique tag has), slotOf_lt key⟩
    simp only [clusterHashKey, first, second, bind_eq_bind, bind_some,
      if_neg inside, List.length_nil, Nat.add_zero, or_true, if_true, readBytes_all]
    rfl
  | cons byte middle =>
    have has : HasTag key (byte :: middle) :=
      ⟨List.cons_ne_nil _ _, not_middle, front, back, by rw [split, split'], not_front⟩
    have inside' : ¬(front.length + 1 + (byte :: middle).length = key.length ∨
        front.length + 1 + (byte :: middle).length = front.length + 1) := by
      rw [length, split', List.length_append, List.length_cons, List.length_cons]
      omega
    have read : readBytes key (front.length + 1)
        (front.length + 1 + (byte :: middle).length - front.length - 1) =
        some (byte :: middle) := by
      have count : front.length + 1 + (byte :: middle).length - front.length - 1 =
          (byte :: middle).length := by omega
      have start : front.length + 1 = (front ++ [123]).length := by simp
      rw [count, start]
      have parts : key = (front ++ [123]) ++ ((byte :: middle) ++ 125 :: back) := by
        rw [split, split', List.append_assoc]
        rfl
      rw [parts]
      exact readBytes_middle _ _ _
    refine ⟨slotOf (byte :: middle), ?_, ⟨fun tag has' => by rw [has'.unique has], fun none_ =>
      absurd has (none_ _)⟩, slotOf_lt _⟩
    simp only [clusterHashKey, first, second, bind_eq_bind, bind_some,
      if_neg inside, if_neg inside', read]
    rfl

end

def DistList.Roomy (dl : DistList) : Prop := 0 < dl.size ∧ dl.entry.length ≤ dl.size

def Table.keys (ht : Table) (slot : Nat) : List Key := ((ht slot).map DistList.entry).getD []

def Table.Roomy (ht : Table) : Prop := ∀ slot dl, ht slot = some dl → dl.Roomy

def Cluster.slot (c : Cluster) (key : Key) : Nat :=
  ((clusterHashKey (redisKeyPrefix c.keyPrefix key) (redisKeyPrefix c.keyPrefix key).length).getD
    0).toNat

section

variable {c : Cluster} {ht : Table} {key : Key}

theorem clusterDlAddKey_spec {dl : DistList} (roomy : dl.Roomy) :
    ∃ dl', clusterDlAddKey dl key = some dl' ∧ dl'.Roomy ∧ dl'.entry = dl.entry ++ [key] := by
  obtain ⟨positive, bound⟩ := roomy
  have room : dl.entry.length < if dl.entry.length = dl.size then dl.size * 2 else dl.size := by
    split <;> omega
  refine ⟨_, if_pos room, ⟨Nat.lt_of_le_of_lt (Nat.zero_le _) room, ?_⟩, rfl⟩
  rw [List.length_append]
  exact room

structure Added (c : Cluster) (ht : Table) (key : Key) (ht' : Table) : Prop where
  roomy : ht'.Roomy
  here : ht'.keys (c.slot key) = ht.keys (c.slot key) ++ [redisKeyPrefix c.keyPrefix key]
  frame : ∀ slot, slot ≠ c.slot key → ht'.keys slot = ht.keys slot

theorem clusterDistAddKey_spec (c : Cluster) (key : Key) (roomy : ht.Roomy) :
    (c.master (c.slot key) = false ∧ clusterDistAddKey c ht key = some (false, ht)) ∨
      c.master (c.slot key) = true ∧
        ∃ ht', clusterDistAddKey c ht key = some (true, ht') ∧ Added c ht key ht' := by
  obtain ⟨slot, hashed, -, -⟩ := clusterHashKey_spec (redisKeyPrefix c.keyPrefix key)
  have isSlot : c.slot key = slot.toNat := by
    rw [Cluster.slot, hashed]
    rfl
  rw [isSlot]
  cases node : c.master slot.toNat with
  | false =>
    left
    refine ⟨rfl, ?_⟩
    simp only [clusterDistAddKey, hashed, bind_eq_bind, bind_some, node, if_true]
    rfl
  | true =>
    right
    have first : ((ht slot.toNat).getD clusterDlCreate).Roomy := by
      cases found : ht slot.toNat with
      | none => exact ⟨by decide, by decide⟩
      | some dl => exact roomy _ _ found
    obtain ⟨dl', isAdded, roomy', entries⟩ :=
      @clusterDlAddKey_spec (redisKeyPrefix c.keyPrefix key) _ first
    refine ⟨rfl, Function.update ht slot.toNat (some dl'), ?_, ?_, ?_, ?_⟩
    · simp only [clusterDistAddKey, hashed, bind_eq_bind, bind_some, node,
        Bool.true_eq_false, if_false, isAdded]
      rfl
    · intro other dl found
      by_cases same : other = slot.toNat
      · rw [same, Function.update_self] at found
        cases found
        exact roomy'
      · rw [Function.update_of_ne same] at found
        exact roomy _ _ found
    · rw [isSlot, Table.keys, Table.keys, Function.update_self]
      show dl'.entry = _
      rw [entries]
      cases ht slot.toNat with
      | none => rfl
      | some dl => rfl
    · intro other apart
      rw [isSlot] at apart
      rw [Table.keys, Table.keys, Function.update_of_ne apart]

def placed (c : Cluster) (keys : List Key) : List Key :=
  keys.takeWhile fun key => c.master (c.slot key)

/-- **The induction is on the keys: each comes behind those of its slot, up to the first failure.** -/
theorem distribute_spec (c : Cluster) (keys : List Key) (roomy : ht.Roomy) :
    ∃ ht', distribute c ht keys = some (keys.all fun key => c.master (c.slot key), ht') ∧
      ∀ slot, ht'.keys slot = ht.keys slot ++
        ((placed c keys).filter fun key => c.slot key = slot).map (redisKeyPrefix c.keyPrefix) := by
  induction keys generalizing ht with
  | nil => exact ⟨ht, rfl, fun slot => (List.append_nil _).symm⟩
  | cons key keys ih =>
    rw [distribute]
    rcases clusterDistAddKey_spec c key roomy with ⟨node, result⟩ | ⟨node, ht', result, added⟩
    · refine ⟨ht, ?_, fun slot => ?_⟩
      · rw [result, List.all_cons, node]
        rfl
      · rw [placed, List.takeWhile_cons_of_neg (by rw [node]; decide)]
        exact (List.append_nil _).symm
    · obtain ⟨last, rest, entries⟩ := ih added.roomy
      refine ⟨last, ?_, fun slot => ?_⟩
      · rw [result, List.all_cons, node, Bool.true_and]
        exact rest
      · have tail : placed c (key :: keys) = key :: placed c keys :=
          List.takeWhile_cons_of_pos node
        rw [entries, tail, List.filter_cons]
        by_cases same : c.slot key = slot
        · rw [if_pos (decide_eq_true same), ← same, added.here, List.append_assoc]
          rfl
        · rw [if_neg (by simpa using same), added.frame slot (Ne.symm same)]

end

structure Sorted (c : Cluster) (keys : List Key) : Prop where
  hashed : ∀ key, ∃ slot, clusterHashKey key key.length = some slot ∧ Slotted key slot ∧
    slot.toNat < 16384
  shared : ∀ key key' tag, HasTag key tag → HasTag key' tag →
    clusterHashKey key key.length = clusterHashKey key' key'.length
  distributed : ∃ ht, distribute c (fun _ => none) keys = some (true, ht) ∧
    ∀ slot, ht.keys slot =
      (keys.filter fun key => c.slot key = slot).map (redisKeyPrefix c.keyPrefix)

structure SortedUpTo (c : Cluster) (keys : List Key) : Prop where
  hashed : ∀ key, ∃ slot, clusterHashKey key key.length = some slot ∧ Slotted key slot ∧
    slot.toNat < 16384
  shared : ∀ key key' tag, HasTag key tag → HasTag key' tag →
    clusterHashKey key key.length = clusterHashKey key' key'.length
  distributed : ∃ ht,
    distribute c (fun _ => none) keys = some (keys.all fun key => c.master (c.slot key), ht) ∧
      ∀ slot, ht.keys slot =
        ((placed c keys).filter fun key => c.slot key = slot).map (redisKeyPrefix c.keyPrefix)

/-- Keys with one tag have one slot, whatever is around it, and keys are sorted up to the first one
whose slot has no node. -/
theorem sortedUpTo (c : Cluster) (keys : List Key) : SortedUpTo c keys := by
  refine ⟨clusterHashKey_spec, ?_, ?_⟩
  · intro key key' tag has has'
    obtain ⟨slot, hashed, slotted, -⟩ := clusterHashKey_spec key
    obtain ⟨slot', hashed', slotted', -⟩ := clusterHashKey_spec key'
    rw [hashed, hashed', slotted.tagged tag has, slotted'.tagged tag has']
  · obtain ⟨ht, result, entries⟩ := @distribute_spec (fun _ => none) c keys nofun
    exact ⟨ht, result, fun slot => (entries slot).trans (List.nil_append _)⟩

/-- Without a node for any slot no key is placed. -/
theorem not_sorted : ¬∀ c keys, Sorted c keys := by
  intro sorted
  obtain ⟨ht, result, -⟩ := (sorted ⟨none, fun _ => false⟩ [[]]).distributed
  have failed : distribute ⟨none, fun _ => false⟩ (fun _ => none) [[]] =
      some (false, fun _ => none) := by
    obtain ⟨-, single⟩ | ⟨node, -⟩ :=
      @clusterDistAddKey_spec (fun _ => none) ⟨none, fun _ => false⟩ [] nofun
    · rw [distribute, single]
    · cases node
  rw [failed] at result
  cases result

end PhpExts.Redis.HashSlot
