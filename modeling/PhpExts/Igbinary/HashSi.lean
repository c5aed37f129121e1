import PhpExts.Library.Probing
import PhpExts.Zend.HashTable
import Mathlib

/-!
# The string and pointer tables of igbinary

`hash_si` maps byte strings to numbers and `hash_si_ptr` pointers to numbers. Both are arrays with
linear probing that double when three quarters are in use, and keys are never removed. The number of
slots is a `size_t`, but the function that makes an array takes an `uint32_t`.

As long as an array is for less than 2^32 slots the tables are insert-only maps
(`insertOnly_of_few`): the capacity asked for is at most 2^31, and there are at most 3 * 2^29
different keys. The next key doubles an array of 2^31 slots; the number of slots wraps to zero, and
all pairs are moved to an array of one slot (`not_insertOnly`). A capacity beyond 2^31 does not get a
table at all, since the power of two that is looked for wraps to zero (`nextpow2_eq_none`).
-/

namespace PhpExts.Igbinary.HashSi

open PhpExts.Zend PhpExts.Library.Probing
open Option (map_some bind_eq_bind bind_some map_map or_none)

/-! ## What the tables share -/

/-- The loop of `nextpow2`. -/
def nextpow2Loop (n : Nat) : Nat → Nat → Option Nat
  | 0, _ => none
  | fuel + 1, m => if m < n then nextpow2Loop n fuel (m <<< 1 % 2 ^ 32) else some m

/-- `nextpow2`, for an `uint32_t`. After 32 rounds `m` is zero and stays so. -/
def nextpow2 (n : Nat) : Option Nat := nextpow2Loop n 33 1

/-- `struct hash_si` and `struct hash_si_ptr`: the slots are `S`. -/
structure Hash (S : Type) where
  size : Nat
  used : Nat
  data : List S

/-- What the two tables do differently: a slot of zeros, the test for a free slot, the test for a
slot of another key, the key and the value in a slot, the hash its pair is moved by, and a new pair. -/
structure Kind (K S : Type) where
  zeroed : S
  isFree : S → Bool
  differs : S → UInt32 → K → Bool
  keyOf : S → K
  valueOf : S → UInt32
  hashOf : S → UInt32
  make : UInt32 → K → UInt32 → S

variable {K S : Type}

section

variable (kind : Kind K S)

/-- `hash_si_init` and `hash_si_ptr_init`. -/
def init (size : Nat) : Option (Hash S) :=
  (nextpow2 (size % 2 ^ 32)).map fun size => ⟨size, 0, List.replicate size kind.zeroed⟩

/-- The loop of `_hash_si_find` and `_hash_si_ptr_find`. `none` is an access beyond the array. -/
def findLoop (data : List S) (mask : Nat) (keyHash : UInt32) (key : K) : Nat → Nat → Option Nat
  | 0, hv => some hv
  | size + 1, hv =>
    match data[hv]? with
    | none => none
    | some slot =>
      if !kind.isFree slot && kind.differs slot keyHash key then
        findLoop data mask keyHash key size ((hv + 1) % 2 ^ 32 &&& mask)
      else some hv

/-- `_hash_si_find` and `_hash_si_ptr_find`. -/
def find (h : Hash S) (keyHash : UInt32) (key : K) : Option Nat :=
  findLoop kind h.data (h.size - 1) keyHash key h.size (keyHash.toNat &&& (h.size - 1))

/-- What the loop of `hash_si_rehash` and `hash_si_ptr_rehash` does with a slot. -/
def move (newh : Hash S) (old : S) : Option (Hash S) :=
  if kind.isFree old then some newh
  else do
    let hv ← find kind newh (kind.hashOf old) (kind.keyOf old)
    if hv < newh.data.length then some { newh with data := newh.data.set hv old } else none

/-- `hash_si_rehash` and `hash_si_ptr_rehash`. -/
def rehash (h : Hash S) : Option (Hash S) := do
  let newh ← init kind (h.size * 2)
  if h.data.length < h.size then none
  else
    let newh ← (h.data.take h.size).foldlM (move kind) newh
    some ⟨h.size * 2, h.used, newh.data⟩

/-- `hash_si_find_or_insert` and `hash_si_ptr_find_or_insert`, with the value found. -/
def findOrInsert (hash : K → UInt32) (h : Hash S) (key : K) (value : UInt32) :
    Option (Option UInt32 × Hash S) := do
  let hv ← find kind h (hash key) key
  match h.data[hv]? with
  | none => none
  | some slot =>
    if kind.isFree slot then
      let h : Hash S := ⟨h.size, h.used + 1, h.data.set hv (kind.make (hash key) key value)⟩
      if h.size / 4 * 3 < h.used then (rehash kind h).map fun h => (none, h) else some (none, h)
    else some (some (kind.valueOf slot), h)

end

def run {H R : Type} (step : H → K → UInt32 → Option (R × H)) :
    H → List (K × UInt32) → Option (List R)
  | _, [] => some []
  | h, call :: calls => do
      let (result, h) ← step h call.1 call.2
      let results ← run step h calls
      some (result :: results)

/-! ## The two tables -/

/-- `struct hash_si_pair`: `key` with `key_len`, `key_hash` and `value`. -/
structure Pair where
  key : Option Bytes
  keyHash : UInt32
  value : UInt32

def Pair.bytes (pair : Pair) : Bytes := pair.key.getD []

def hashSi : Kind Bytes Pair where
  zeroed := ⟨none, 0, 0⟩
  isFree pair := pair.key.isNone
  differs pair keyHash key :=
    pair.keyHash != keyHash || pair.bytes.length != key.length ||
      pair.bytes.take key.length != key
  keyOf := Pair.bytes
  valueOf := Pair.value
  hashOf := Pair.keyHash
  make keyHash key value := ⟨some key, keyHash, value⟩

/-- `struct hash_si_ptr_pair`. -/
structure PtrPair where
  key : UInt64
  value : UInt32

def hashSiPtr (hash : UInt64 → UInt32) : Kind UInt64 PtrPair where
  zeroed := ⟨0, 0⟩
  isFree pair := pair.key == 0
  differs pair _ key := pair.key != key
  keyOf := PtrPair.key
  valueOf := PtrPair.value
  hashOf pair := hash pair.key
  make _ key value := ⟨key, value⟩

/-- `enum hash_si_code`, without failed allocations. -/
inductive Code where
  | inserted
  | exists_
  deriving DecidableEq

/-- `struct hash_si_result`. The value is not set for an inserted key. -/
structure Result where
  code : Code
  value : Option UInt32
  deriving DecidableEq

def Result.of : Option UInt32 → Result
  | none => ⟨.inserted, none⟩
  | some value => ⟨.exists_, some value⟩

def hashSiFindOrInsert (hash : Bytes → UInt32) (h : Hash Pair) (key : Bytes) (value : UInt32) :
    Option (Result × Hash Pair) :=
  (findOrInsert hashSi hash h key value).map (Prod.map Result.of id)

/-- `SIZE_MAX` for an inserted key, or the value. -/
def sizeOf : Option UInt32 → UInt64
  | none => 0xFFFFFFFFFFFFFFFF
  | some value => value.toUInt64

def hashSiPtrFindOrInsert (hash : UInt64 → UInt32) (h : Hash PtrPair) (key : UInt64)
    (value : UInt32) : Option (UInt64 × Hash PtrPair) :=
  (findOrInsert (hashSiPtr hash) hash h key value).map (Prod.map sizeOf id)

/-- The answers of an insert-only map: the value of the first call with the key, if there was one. -/
def answers [DecidableEq K] (before : List (K × UInt32)) : List (K × UInt32) → List (Option UInt32)
  | [] => []
  | call :: calls => before.lookup call.1 :: answers (before ++ [call]) calls

def InsertOnly (hash : Bytes → UInt32) (capacity : UInt32) (calls : List (Bytes × UInt32)) : Prop :=
  ((init hashSi capacity.toNat).bind fun h => run (hashSiFindOrInsert hash) h calls) =
    some ((answers [] calls).map Result.of)

def PtrInsertOnly (hash : UInt64 → UInt32) (capacity : UInt64) (calls : List (UInt64 × UInt32)) :
    Prop :=
  ((init (hashSiPtr hash) capacity.toNat).bind fun h => run (hashSiPtrFindOrInsert hash) h calls) =
    some ((answers [] calls).map sizeOf)

def distinctKeys [DecidableEq K] (calls : List (K × UInt32)) : Nat :=
  (calls.map Prod.fst).toFinset.card

/-! ## The next power of two -/

section

variable {n m fuel : Nat}

theorem nextpow2Loop_of_small (small : n ≤ 2 ^ 31) {k : Nat} (le : k ≤ 31) (enough : 31 - k < fuel) :
    ∃ j, k ≤ j ∧ j ≤ 31 ∧ n ≤ 2 ^ j ∧ (n ≤ 2 ^ k → j = k) ∧
      nextpow2Loop n fuel (2 ^ k) = some (2 ^ j) := by
  induction fuel generalizing k with
  | zero => exact absurd enough (Nat.not_lt_zero _)
  | succ fuel ih =>
    rw [nextpow2Loop]
    by_cases less : 2 ^ k < n
    · have below : k < 31 := by
        have := Nat.lt_of_lt_of_le less small
        exact (Nat.pow_lt_pow_iff_right (by decide)).mp this
      have doubled : 2 ^ k <<< 1 % 2 ^ 32 = 2 ^ (k + 1) := by
        rw [Nat.shiftLeft_eq, pow_one, ← pow_succ]
        apply Nat.mod_eq_of_lt
        exact Nat.pow_lt_pow_right (by decide) (by omega)
      obtain ⟨j, le', bound, large, -, found⟩ := ih (k := k + 1) below (by omega)
      rw [if_pos less, doubled]
      exact ⟨j, by omega, bound, large, fun contra => absurd less (by omega), found⟩
    · rw [if_neg less]
      exact ⟨k, le_rfl, le, by omega, fun _ => rfl, rfl⟩

theorem nextpow2Loop_of_large (large : 2 ^ 31 < n) {k : Nat} (start : m = 0 ∨ (k ≤ 31 ∧ m = 2 ^ k)) :
    nextpow2Loop n fuel m = none := by
  induction fuel generalizing m k with
  | zero => rfl
  | succ fuel ih =>
    rw [nextpow2Loop]
    rcases start with rfl | ⟨le, rfl⟩
    · rw [if_pos (by omega)]
      exact ih (k := 0) (.inl rfl)
    · have less : 2 ^ k < n := Nat.lt_of_le_of_lt (Nat.pow_le_pow_right (by decide) le) large
      rw [if_pos less, Nat.shiftLeft_eq, pow_one, ← pow_succ]
      rcases Nat.lt_or_eq_of_le le with below | rfl
      · rw [Nat.mod_eq_of_lt (Nat.pow_lt_pow_right (by decide) (by omega))]
        exact ih (k := k + 1) (.inr ⟨below, rfl⟩)
      · exact ih (k := 0) (.inl (by decide))

theorem nextpow2_eq_some (small : n ≤ 2 ^ 31) :
    ∃ j, j ≤ 31 ∧ n ≤ 2 ^ j ∧ nextpow2 n = some (2 ^ j) := by
  obtain ⟨j, -, le, large, -, found⟩ := @nextpow2Loop_of_small n 33 small 0 (by decide) (by decide)
  exact ⟨j, le, large, found⟩

theorem nextpow2_eq_none (large : 2 ^ 31 < n) : ∀ fuel, nextpow2Loop n fuel 1 = none :=
  fun _ => nextpow2Loop_of_large large (k := 0) (.inr ⟨by decide, rfl⟩)

theorem nextpow2_two_pow {k : Nat} (le : k ≤ 31) : nextpow2 (2 ^ k) = some (2 ^ k) := by
  have powers : ∀ k < 32, nextpow2 (2 ^ k) = some (2 ^ k) := by decide
  exact powers k (by omega)

theorem nextpow2_pow {size : Nat} (found : nextpow2 n = some size) : ∃ j, j ≤ 32 ∧ size = 2 ^ j := by
  rcases Nat.lt_or_ge (2 ^ 31) n with large | small
  · rw [nextpow2, nextpow2_eq_none large] at found
    cases found
  · obtain ⟨j, le, -, found'⟩ := nextpow2_eq_some small
    rw [found] at found'
    exact ⟨j, by omega, Option.some.inj found'⟩

end

/-! ## The tables are tables with linear probing -/

section

variable (kind : Kind K S) (hash : K → UInt32)

def view (slot : S) : Option (K × UInt32) :=
  if kind.isFree slot then none else some (kind.keyOf slot, kind.valueOf slot)

def toTable (h : Hash S) : Table K UInt32 := ⟨h.size, h.used, h.data.map (view kind)⟩

def Hashed (slot : S) : Prop := kind.isFree slot = false → kind.hashOf slot = hash (kind.keyOf slot)

structure Lawful (valid : K → Prop) : Prop where
  zeroed : kind.isFree kind.zeroed = true
  differs : ∀ slot key, kind.hashOf slot = hash (kind.keyOf slot) →
    (kind.differs slot (hash key) key = true ↔ kind.keyOf slot ≠ key)
  isFree_make : ∀ key value, valid key → kind.isFree (kind.make (hash key) key value) = false
  keyOf_make : ∀ key value, kind.keyOf (kind.make (hash key) key value) = key
  valueOf_make : ∀ key value, kind.valueOf (kind.make (hash key) key value) = value
  hashOf_make : ∀ key value, kind.hashOf (kind.make (hash key) key value) = hash key

def hashNat (key : K) : Nat := (hash key).toNat

end

section

variable [DecidableEq K] {kind : Kind K S} {hash : K → UInt32} {valid : K → Prop}

def capacity (n : Nat) : Option Nat := nextpow2 (n % 2 ^ 32)

omit [DecidableEq K] in
theorem view_of_free {slot : S} (free : kind.isFree slot = true) : view kind slot = none := by
  rw [view, if_pos free]

omit [DecidableEq K] in
theorem view_of_used {slot : S} (used : kind.isFree slot = false) :
    view kind slot = some (kind.keyOf slot, kind.valueOf slot) := by
  rw [view, if_neg (by rw [used]; exact Bool.false_ne_true)]

theorem next_slot {hv j : Nat} (le : j ≤ 32) :
    (hv + 1) % 2 ^ 32 &&& (2 ^ j - 1) = (hv + 1) &&& (2 ^ j - 1) := by
  rw [Nat.and_two_pow_sub_one_eq_mod, Nat.and_two_pow_sub_one_eq_mod]
  exact Nat.mod_mod_of_dvd _ (Nat.pow_dvd_pow 2 le)

theorem findLoop_eq_probe (lawful : Lawful kind hash valid) {data : List S} {j : Nat} (le : j ≤ 32)
    (hashed : ∀ slot ∈ data, Hashed kind hash slot) {key : K} {n hv : Nat} :
    findLoop kind data (2 ^ j - 1) (hash key) key n hv =
      probe (data.map (view kind)) (2 ^ j - 1) key n hv := by
  induction n generalizing hv with
  | zero => rfl
  | succ n ih =>
    rw [findLoop, probe, List.getElem?_map]
    cases there : data[hv]? with
    | none => rfl
    | some slot =>
      rw [map_some]
      dsimp only
      cases free : kind.isFree slot with
      | true =>
        rw [view_of_free free]
        rfl
      | false =>
        have differs := lawful.differs slot key
          (hashed slot (List.mem_of_getElem? there) free)
        rw [view_of_used free]
        by_cases same : kind.keyOf slot = key
        · have notDiffers : kind.differs slot (hash key) key = false := by
            rw [← Bool.not_eq_true, differs]
            exact not_not_intro same
          simp only [notDiffers, if_pos same, Bool.and_false, Bool.false_eq_true, if_false]
        · simp only [differs.mpr same, if_neg same, next_slot le, ih, Bool.not_false,
            Bool.and_true, if_true]

theorem find_eq_find (lawful : Lawful kind hash valid) {h : Hash S}
    (pow : ∃ j, j ≤ 32 ∧ h.size = 2 ^ j) (hashed : ∀ slot ∈ h.data, Hashed kind hash slot)
    {key : K} : find kind h (hash key) key = (toTable kind h).find (hashNat hash) key := by
  obtain ⟨j, le, size⟩ := pow
  have size_ : (toTable kind h).size = 2 ^ j := size
  rw [find, Table.find, locate, size, size_]
  exact findLoop_eq_probe lawful le hashed

theorem move_toTable (lawful : Lawful kind hash valid) {newh : Hash S} {old : S}
    (pow : ∃ j, j ≤ 32 ∧ newh.size = 2 ^ j) (hashed : ∀ slot ∈ newh.data, Hashed kind hash slot)
    (good : Hashed kind hash old) : (move kind newh old).map (toTable kind) =
        (toTable kind newh).move (hashNat hash) (view kind old) ∧
      ∀ moved, move kind newh old = some moved → moved.size = newh.size ∧
        ∀ slot ∈ moved.data, Hashed kind hash slot := by
  rw [move]
  cases free : kind.isFree old with
  | true =>
    rw [view_of_free free]
    refine ⟨rfl, fun moved same => ?_⟩
    cases same
    exact ⟨rfl, hashed⟩
  | false =>
    rw [view_of_used free, if_neg Bool.false_ne_true, good free, find_eq_find lawful pow hashed,
      Table.move]
    cases (toTable kind newh).find (hashNat hash) (kind.keyOf old) with
    | none => exact ⟨rfl, by rintro _ ⟨⟩⟩
    | some hv =>
      have length : (toTable kind newh).data.length = newh.data.length := List.length_map _
      simp only [bind_eq_bind, bind_some, length]
      by_cases inside : hv < newh.data.length
      · rw [if_pos inside, if_pos inside, map_some]
        constructor
        · simp only [toTable, List.map_set, view_of_used free]
        · intro moved same
          cases same
          refine ⟨rfl, fun slot mem => ?_⟩
          rcases List.mem_or_eq_of_mem_set mem with there | rfl
          · exact hashed slot there
          · exact good
      · rw [if_neg inside, if_neg inside]
        exact ⟨rfl, by rintro _ ⟨⟩⟩

theorem foldlM_move_toTable (lawful : Lawful kind hash valid) {newh : Hash S} {old : List S}
    (pow : ∃ j, j ≤ 32 ∧ newh.size = 2 ^ j) (hashed : ∀ slot ∈ newh.data, Hashed kind hash slot)
    (good : ∀ slot ∈ old, Hashed kind hash slot) :
    (old.foldlM (move kind) newh).map (toTable kind) =
        (old.map (view kind)).foldlM (Table.move (hashNat hash)) (toTable kind newh) ∧
      ∀ moved, old.foldlM (move kind) newh = some moved →
        ∀ slot ∈ moved.data, Hashed kind hash slot := by
  induction old generalizing newh with
  | nil =>
    refine ⟨rfl, fun moved same => ?_⟩
    cases same
    exact hashed
  | cons first rest ih =>
    obtain ⟨here, step⟩ := move_toTable lawful pow hashed (good first (.head _))
    rw [List.map_cons, List.foldlM_cons, List.foldlM_cons, ← here]
    cases moved : move kind newh first with
    | none => exact ⟨rfl, nofun⟩
    | some next =>
      obtain ⟨size, hashed'⟩ := step next moved
      exact ih (size ▸ pow) hashed' fun slot mem => good slot (.tail _ mem)

omit [DecidableEq K] in
theorem init_toTable (lawful : Lawful kind hash valid) {size : Nat} :
    (init kind size).map (toTable kind) = (capacity size).map Table.empty ∧
      ∀ h, init kind size = some h → (∃ j, j ≤ 32 ∧ h.size = 2 ^ j) ∧
        ∀ slot ∈ h.data, Hashed kind hash slot := by
  rw [init, capacity]
  constructor
  · rw [map_map]
    congr 1
    funext n
    simp only [Function.comp, toTable, Table.empty, List.map_replicate, view_of_free lawful.zeroed]
  · intro h made
    obtain ⟨n, found, rfl⟩ := Option.map_eq_some_iff.mp made
    refine ⟨nextpow2_pow found, fun slot mem used => ?_⟩
    rw [(List.mem_replicate.mp mem).2, lawful.zeroed] at used
    cases used

theorem rehash_toTable (lawful : Lawful kind hash valid) {h : Hash S}
    (hashed : ∀ slot ∈ h.data, Hashed kind hash slot) :
    (rehash kind h).map (toTable kind) = (toTable kind h).rehash (hashNat hash) capacity ∧
      ∀ grown, rehash kind h = some grown → ∀ slot ∈ grown.data, Hashed kind hash slot := by
  obtain ⟨made, fresh⟩ := @init_toTable _ _ _ _ _ lawful (h.size * 2)
  have length : (toTable kind h).data.length = h.data.length := List.length_map _
  rw [rehash, Table.rehash]
  change _ = ((capacity (h.size * 2)).bind fun n => _) ∧ _
  cases start : init kind (h.size * 2) with
  | none =>
    rw [start, Option.map_none] at made
    rw [Option.map_eq_none_iff.mp made.symm]
    exact ⟨rfl, by rintro _ ⟨⟩⟩
  | some newh =>
    rw [start, map_some] at made
    obtain ⟨n, capacity_, empty⟩ := Option.map_eq_some_iff.mp made.symm
    obtain ⟨pow, hashed'⟩ := fresh newh start
    rw [capacity_]
    simp only [bind_eq_bind, bind_some, length]
    change Option.map _ (if h.data.length < h.size then _ else _) =
      (if h.data.length < h.size then _ else _) ∧ _
    by_cases short : h.data.length < h.size
    · rw [if_pos short, if_pos short]
      exact ⟨rfl, by rintro _ ⟨⟩⟩
    · obtain ⟨moves, keeps⟩ := @foldlM_move_toTable _ _ _ _ _ _ lawful _ (h.data.take h.size)
        pow hashed' fun slot mem => hashed slot (List.mem_of_mem_take mem)
      rw [if_neg short, if_neg short, empty]
      change _ = (Option.bind (((h.data.map (view kind)).take h.size).foldlM _ _) _) ∧ _
      rw [← List.map_take, ← moves]
      cases folded : (h.data.take h.size).foldlM (move kind) newh with
      | none => exact ⟨rfl, by rintro _ ⟨⟩⟩
      | some moved =>
        refine ⟨rfl, fun grown same => ?_⟩
        cases same
        exact keeps moved folded

theorem findOrInsert_toTable (lawful : Lawful kind hash valid) {h : Hash S}
    (pow : ∃ j, j ≤ 32 ∧ h.size = 2 ^ j) (hashed : ∀ slot ∈ h.data, Hashed kind hash slot)
    {key : K} (ok : valid key) (value : UInt32) :
    (findOrInsert kind hash h key value).map (Prod.map id (toTable kind)) =
        (toTable kind h).findOrInsert (hashNat hash) capacity key value ∧
      ∀ found next, findOrInsert kind hash h key value = some (found, next) →
        ∀ slot ∈ next.data, Hashed kind hash slot := by
  rw [findOrInsert, Table.findOrInsert, find_eq_find lawful pow hashed]
  cases (toTable kind h).find (hashNat hash) key with
  | none => exact ⟨rfl, by rintro _ _ ⟨⟩⟩
  | some hv =>
    have data_ : (toTable kind h).data = h.data.map (view kind) := rfl
    simp only [bind_eq_bind, bind_some, data_, List.getElem?_map]
    cases there : h.data[hv]? with
    | none => exact ⟨rfl, by rintro _ _ ⟨⟩⟩
    | some slot =>
      rw [map_some]
      dsimp only
      cases free : kind.isFree slot with
      | false =>
        rw [view_of_used free, if_neg Bool.false_ne_true]
        refine ⟨rfl, fun found next same => ?_⟩
        cases same
        exact hashed
      | true =>
        rw [view_of_free free, if_pos rfl]
        let filled : Hash S :=
          ⟨h.size, h.used + 1, h.data.set hv (kind.make (hash key) key value)⟩
        have filled_toTable : toTable kind filled = ⟨h.size, h.used + 1,
            (h.data.map (view kind)).set hv (some (key, value))⟩ := by
          simp only [filled, toTable, List.map_set,
            view_of_used (lawful.isFree_make key value ok), lawful.keyOf_make,
            lawful.valueOf_make]
        have hashed' : ∀ slot ∈ filled.data, Hashed kind hash slot := by
          intro slot mem
          rcases List.mem_or_eq_of_mem_set mem with there | rfl
          · exact hashed slot there
          · intro
            rw [lawful.hashOf_make, lawful.keyOf_make]
        obtain ⟨grows, keeps⟩ := rehash_toTable lawful hashed'
        change Option.map _ (if filled.size / 4 * 3 < filled.used then
            (rehash kind filled).map _ else some (none, filled)) =
          (let table : Table K UInt32 := ⟨h.size, h.used + 1,
            (h.data.map (view kind)).set hv (some (key, value))⟩
          if filled.size / 4 * 3 < filled.used then
            (table.rehash (hashNat hash) capacity).map _ else some (none, table)) ∧
          ∀ found next, (if filled.size / 4 * 3 < filled.used then
            (rehash kind filled).map _ else some (none, filled)) = some (found, next) → _
        rw [← filled_toTable]
        dsimp only
        by_cases full : filled.size / 4 * 3 < filled.used
        · rw [if_pos full, if_pos full, ← grows]
          cases regrown : rehash kind filled with
          | none => exact ⟨rfl, by rintro _ _ ⟨⟩⟩
          | some grown =>
            refine ⟨rfl, fun found next same => ?_⟩
            cases same
            exact keeps grown regrown
        · rw [if_neg full, if_neg full]
          refine ⟨rfl, fun found next same => ?_⟩
          cases same
          exact hashed'

end

section

variable [DecidableEq K] {kind : Kind K S} {hash : K → UInt32} {valid : K → Prop}

/-- A table after calls, made with at least `first` slots. -/
structure Built (kind : Kind K S) (hash : K → UInt32) (first : Nat) (h : Hash S)
    (before : List (K × UInt32)) : Prop where
  sound : (toTable kind h).Sound (hashNat hash)
  hashed : ∀ slot ∈ h.data, Hashed kind hash slot
  members : ∀ k v, some (k, v) ∈ (toTable kind h).data ↔ before.lookup k = some v
  used : h.used = distinctKeys before
  least : first ≤ h.size
  most : h.size ≤ 2 ^ 31

omit [DecidableEq K] in
theorem pow_of_most {h : Hash S} (pow : ∃ j, (toTable kind h).size = 2 ^ j) (most : h.size ≤ 2 ^ 31) :
    ∃ j, j ≤ 31 ∧ h.size = 2 ^ j := by
  obtain ⟨j, size⟩ := pow
  change h.size = 2 ^ j at size
  rw [size] at most
  exact ⟨j, (Nat.pow_le_pow_iff_right (by decide)).mp most, size⟩

theorem lookup_append_singleton (before : List (K × UInt32)) (k key : K) (value : UInt32) :
    (before ++ [(key, value)]).lookup k =
      (before.lookup k).or (if k = key then some value else none) := by
  rw [List.lookup_append, List.lookup_cons, List.lookup_nil]
  by_cases same : k = key
  · rw [if_pos same, beq_iff_eq.mpr same]
  · rw [if_neg same, beq_eq_false_iff_ne.mpr same]

theorem lookup_eq_none {before : List (K × UInt32)} {key : K}
    (absent : ∀ pair ∈ before, pair.1 ≠ key) : before.lookup key = none := by
  rw [List.lookup_eq_none_iff]
  intro pair mem
  rw [bne_iff_ne]
  exact (absent pair mem).symm

theorem distinctKeys_of_lookup {before : List (K × UInt32)} {key : K} {stored value : UInt32}
    (found : before.lookup key = some stored) :
    distinctKeys (before ++ [(key, value)]) = distinctKeys before := by
  have mem : key ∈ (before.map Prod.fst).toFinset := by
    rw [List.mem_toFinset]
    by_contra absent
    rw [lookup_eq_none] at found
    · cases found
    · rintro pair mem rfl
      exact absent (List.mem_map_of_mem mem)
  rw [distinctKeys, distinctKeys, List.map_append, List.toFinset_append]
  congr 1
  rw [Finset.union_eq_left]
  intro k mem'
  rw [List.map_singleton, List.mem_toFinset, List.mem_singleton] at mem'
  rw [mem']
  exact mem

theorem distinctKeys_of_not_lookup {before : List (K × UInt32)} {key : K} {value : UInt32}
    (missing : before.lookup key = none) :
    distinctKeys (before ++ [(key, value)]) = distinctKeys before + 1 := by
  have absent : key ∉ (before.map Prod.fst).toFinset := by
    rw [List.mem_toFinset, List.mem_map]
    rintro ⟨pair, mem, rfl⟩
    exact bne_iff_ne.mp (List.lookup_eq_none_iff.mp missing pair mem) rfl
  rw [distinctKeys, distinctKeys, List.map_append, List.toFinset_append, List.map_singleton,
    List.toFinset_cons, List.toFinset_nil, Finset.union_comm, Finset.insert_union,
    Finset.empty_union, Finset.card_insert_of_notMem absent]

/-- **A call keeps the table a map of the calls, and answers as it.** -/
theorem Built.step (lawful : Lawful kind hash valid) {first : Nat} {h : Hash S}
    {before : List (K × UInt32)} (built : Built kind hash first h before) {key : K} (ok : valid key)
    (value : UInt32) (few : distinctKeys (before ++ [(key, value)]) ≤ 3 * 2 ^ 29) :
    ∃ next, findOrInsert kind hash h key value = some (before.lookup key, next) ∧
      Built kind hash first next (before ++ [(key, value)]) := by
  obtain ⟨j, le, size⟩ := pow_of_most built.sound.placed.pow built.most
  obtain ⟨same, keeps⟩ := findOrInsert_toTable lawful ⟨j, by omega, size⟩ built.hashed ok value
  have lifted : ∀ {found table},
      (toTable kind h).findOrInsert (hashNat hash) capacity key value = some (found, table) →
      ∃ next, findOrInsert kind hash h key value = some (found, next) ∧
        toTable kind next = table ∧ ∀ slot ∈ next.data, Hashed kind hash slot := by
    intro found table answered
    rw [answered, Option.map_eq_some_iff] at same
    obtain ⟨⟨found', next⟩, called, pair⟩ := same
    rw [Prod.map, Prod.mk.injEq] at pair
    obtain ⟨rfl, rfl⟩ := pair
    exact ⟨next, called, rfl, keeps _ _ called⟩
  cases found : before.lookup key with
  | some stored =>
    obtain ⟨next, called, table, hashed⟩ := lifted (Library.Probing.findOrInsert_found built.sound
      ((built.members key stored).mpr found))
    refine ⟨next, called, ⟨table ▸ built.sound, hashed, ?_, ?_, ?_, ?_⟩⟩
    · intro k v
      rw [table, built.members, lookup_append_singleton]
      by_cases same : k = key
      · rw [if_pos same, same, found]
        rfl
      · rw [if_neg same, or_none]
    · rw [distinctKeys_of_lookup found, ← built.used]
      exact congrArg Table.used table
    · exact built.least.trans_eq (congrArg Table.size table).symm
    · exact (congrArg Table.size table).trans_le built.most
  | none =>
    have counted : distinctKeys (before ++ [(key, value)]) = h.used + 1 := by
      rw [distinctKeys_of_not_lookup found, built.used]
    -- An array of 2^31 slots has room for the new key.
    have allocates : h.size / 4 * 3 < h.used + 1 → j ≤ 30 := by
      intro full
      by_contra large
      have : j = 31 := by omega
      rw [this] at size
      omega
    have doubled : j ≤ 30 → h.size * 2 = 2 ^ (j + 1) := by
      intro
      rw [size, pow_succ]
    obtain ⟨table, answered, sound, used, tableSize, members⟩ :=
      @Library.Probing.findOrInsert_new _ _ _ _ capacity _ built.sound key value
        (fun v stored => by
          rw [(built.members key v).mp stored] at found
          cases found)
        (fun full => by
          have small := allocates full
          change capacity (h.size * 2) = some (h.size * 2)
          rw [capacity, doubled small, Nat.mod_eq_of_lt
            (Nat.pow_lt_pow_right (by decide) (by omega))]
          exact nextpow2_two_pow (by omega))
    obtain ⟨next, called, rfl, hashed⟩ := lifted answered
    change next.size = if h.size / 4 * 3 < h.used + 1 then h.size * 2 else h.size at tableSize
    refine ⟨next, called, ⟨sound, hashed, ?_, ?_, ?_, ?_⟩⟩
    · intro k v
      rw [members, built.members, lookup_append_singleton]
      by_cases same : k = key
      · rw [if_pos same, same, found, Option.none_or]
        constructor
        · rintro (stored | ⟨-, rfl⟩)
          · cases stored
          · rfl
        · intro stored
          exact .inr ⟨rfl, (Option.some.inj stored).symm⟩
      · rw [if_neg same, or_none]
        constructor
        · rintro (stored | ⟨other, -⟩)
          · exact stored
          · exact absurd other same
        · exact .inl
    · rw [counted]
      exact used
    · have := built.least
      split at tableSize <;> omega
    · by_cases full : h.size / 4 * 3 < h.used + 1
      · rw [tableSize, if_pos full, doubled (allocates full)]
        exact Nat.pow_le_pow_right (by decide) (by have := allocates full; omega)
      · rw [tableSize, if_neg full]
        exact built.most

theorem answers_append (before calls rest : List (K × UInt32)) :
    answers before (calls ++ rest) = answers before calls ++ answers (before ++ calls) rest := by
  induction calls generalizing before with
  | nil => rw [List.append_nil]; rfl
  | cons call calls ih =>
    rw [List.cons_append, answers, answers, ih, List.append_assoc]
    rfl

theorem Built.run (lawful : Lawful kind hash valid) {first : Nat} {h : Hash S}
    {before calls : List (K × UInt32)} (built : Built kind hash first h before)
    (ok : ∀ call ∈ calls, valid call.1) (few : distinctKeys (before ++ calls) ≤ 3 * 2 ^ 29) :
    ∃ next, Built kind hash first next (before ++ calls) ∧
      ∀ rest, HashSi.run (findOrInsert kind hash) h (calls ++ rest) =
        (HashSi.run (findOrInsert kind hash) next rest).map (answers before calls ++ ·) := by
  induction calls generalizing h before with
  | nil =>
    refine ⟨h, by rwa [List.append_nil], fun rest => ?_⟩
    rw [List.nil_append]
    exact Option.map_id'.symm
  | cons call calls ih =>
    obtain ⟨key, value⟩ := call
    have regroup : before ++ (key, value) :: calls = (before ++ [(key, value)]) ++ calls := by
      rw [List.append_assoc, List.singleton_append]
    have fewer : distinctKeys (before ++ [(key, value)]) ≤
        distinctKeys (before ++ (key, value) :: calls) := by
      rw [regroup, distinctKeys, distinctKeys, @List.map_append _ _ _ _ calls,
        List.toFinset_append]
      exact Finset.card_le_card Finset.subset_union_left
    obtain ⟨middle, called, built'⟩ := built.step lawful (ok _ (.head _)) value
      (fewer.trans few)
    obtain ⟨next, done, rest_⟩ := ih built' (fun call mem => ok call (.tail _ mem))
      (by rwa [← regroup])
    refine ⟨next, by rwa [regroup], fun rest => ?_⟩
    rw [List.cons_append, HashSi.run, called]
    simp only [bind_eq_bind, bind_some, rest_, answers]
    cases HashSi.run (findOrInsert kind hash) next rest <;> rfl

theorem built_init (lawful : Lawful kind hash valid) {size : Nat} (small : size % 2 ^ 32 ≤ 2 ^ 31) :
    ∃ h, init kind size = some h ∧ Built kind hash (size % 2 ^ 32) h [] := by
  obtain ⟨j, le, large, found⟩ := nextpow2_eq_some small
  have made : init kind size = some ⟨2 ^ j, 0, List.replicate (2 ^ j) kind.zeroed⟩ := by
    rw [init, found, map_some]
  have table : toTable kind ⟨2 ^ j, 0, List.replicate (2 ^ j) kind.zeroed⟩ =
      Table.empty (2 ^ j) := by
    rw [toTable, List.map_replicate, view_of_free lawful.zeroed, Table.empty]
  refine ⟨_, made, ⟨?_, ((init_toTable lawful).2 _ made).2, ?_, rfl, large, ?_⟩⟩
  · rw [table]
    exact ⟨placed_empty ⟨j, rfl⟩, occupied_replicate _, Nat.two_pow_pos j⟩
  · intro k v
    rw [table]
    constructor
    · intro stored
      cases (List.mem_replicate.mp stored).2
    · intro stored
      cases stored
  · exact Nat.pow_le_pow_right (by decide) le

/-- **A table with few keys answers as an insert-only map.** -/
theorem run_eq_answers (lawful : Lawful kind hash valid) {size : Nat} {calls : List (K × UInt32)}
    (small : size % 2 ^ 32 ≤ 2 ^ 31) (ok : ∀ call ∈ calls, valid call.1)
    (few : distinctKeys calls ≤ 3 * 2 ^ 29) :
    ((init kind size).bind fun h => HashSi.run (findOrInsert kind hash) h calls) =
      some (answers [] calls) := by
  obtain ⟨h, made, built⟩ := built_init lawful small
  obtain ⟨next, -, whole⟩ := built.run lawful ok few
  have := whole []
  rw [List.append_nil] at this
  rw [made, bind_some, this, HashSi.run, map_some, List.append_nil]

omit [DecidableEq K] in
theorem run_map {H R R' : Type} {step : H → K → UInt32 → Option (R × H)} (f : R → R') {h : H}
    {calls : List (K × UInt32)} :
    HashSi.run (fun h key value => (step h key value).map (Prod.map f id)) h calls =
      (HashSi.run step h calls).map (List.map f) := by
  induction calls generalizing h with
  | nil => rfl
  | cons call calls ih =>
    rw [HashSi.run, HashSi.run]
    cases step h call.1 call.2 with
    | none => rfl
    | some pair =>
      simp only [map_some, bind_eq_bind, bind_some, Prod.map, id]
      rw [ih]
      cases HashSi.run step pair.2 calls <;> rfl

end

/-! ## The two tables are insert-only maps -/

theorem lawful_hashSi (hash : Bytes → UInt32) : Lawful hashSi hash fun _ => True where
  zeroed := rfl
  differs slot key hashed := by
    change slot.keyHash = hash slot.bytes at hashed
    change (slot.keyHash != hash key || slot.bytes.length != key.length ||
      slot.bytes.take key.length != key) = true ↔ slot.bytes ≠ key
    rw [hashed]
    constructor
    · rintro differs rfl
      simp at differs
    · intro other
      by_cases same : slot.bytes.length = key.length
      · rw [← same, List.take_length]
        simp [other]
      · simp [same]
  isFree_make _ _ _ := rfl
  keyOf_make _ _ := rfl
  valueOf_make _ _ := rfl
  hashOf_make _ _ := rfl

theorem lawful_hashSiPtr (hash : UInt64 → UInt32) :
    Lawful (hashSiPtr hash) hash fun key => key ≠ 0 where
  zeroed := rfl
  differs slot key _ := by
    change (slot.key != key) = true ↔ slot.key ≠ key
    rw [bne_iff_ne]
  isFree_make key value nonzero := by
    change (key == 0) = false
    rwa [beq_eq_false_iff_ne]
  keyOf_make _ _ := rfl
  valueOf_make _ _ := rfl
  hashOf_make _ _ := rfl

/-- The tables are insert-only maps as long as no array is for more than 2^31 slots. -/
theorem insertOnly_of_few (hash : Bytes → UInt32) (ptrHash : UInt64 → UInt32)
    (capacity : UInt32) (ptrCapacity : UInt64) (calls : List (Bytes × UInt32))
    (ptrCalls : List (UInt64 × UInt32)) (nonzero : ∀ call ∈ ptrCalls, call.1 ≠ 0)
    (small : capacity.toNat ≤ 2 ^ 31) (ptrSmall : ptrCapacity.toNat % 2 ^ 32 ≤ 2 ^ 31)
    (few : distinctKeys calls ≤ 3 * 2 ^ 29) (ptrFew : distinctKeys ptrCalls ≤ 3 * 2 ^ 29) :
    InsertOnly hash capacity calls ∧ PtrInsertOnly ptrHash ptrCapacity ptrCalls := by
  constructor
  · have word : capacity.toNat % 2 ^ 32 = capacity.toNat := Nat.mod_eq_of_lt capacity.toNat_lt
    have whole := run_eq_answers (lawful_hashSi hash) (word.trans_le small) (fun _ _ => trivial) few
    obtain ⟨h, made, ran⟩ := Option.bind_eq_some_iff.mp whole
    rw [InsertOnly, made, bind_some]
    exact (run_map Result.of).trans (by rw [ran, map_some])
  · have whole := run_eq_answers (lawful_hashSiPtr ptrHash) ptrSmall nonzero ptrFew
    obtain ⟨h, made, ran⟩ := Option.bind_eq_some_iff.mp whole
    rw [PtrInsertOnly, made, bind_some]
    exact (run_map sizeOf).trans (by rw [ran, map_some])

theorem insertOnly_three : InsertOnly (fun _ => 3) 0 [([1], 10), ([2], 20), ([1], 30)] ∧
      PtrInsertOnly UInt64.toUInt32 1 [(8, 1), (8, 2)] :=
  insertOnly_of_few _ _ _ _ _ _ (by simp) (by decide) (by decide) (by decide) (by decide)

/-! ## The array of one slot -/

variable [DecidableEq K] {kind : Kind K S} {hash : K → UInt32}

omit [DecidableEq K] in
theorem findLoop_eq_none {data : List S} {mask size hv : Nat} {keyHash : UInt32} {key : K}
    (pos : 0 < size) (outside : data[hv]? = none) :
    findLoop kind data mask keyHash key size hv = none := by
  cases size with
  | zero => exact absurd pos (Nat.lt_irrefl 0)
  | succ size => rw [findLoop, outside]

omit [DecidableEq K] in
theorem move_length {newh moved : Hash S} {old : S} (done : move kind newh old = some moved) :
    moved.data.length = newh.data.length := by
  rw [move] at done
  split at done
  · cases done
    rfl
  · obtain ⟨hv, -, stored⟩ := Option.bind_eq_some_iff.mp done
    split at stored
    · cases stored
      exact List.length_set
    · cases stored

omit [DecidableEq K] in
theorem foldlM_move_length {newh moved : Hash S} {old : List S}
    (done : old.foldlM (move kind) newh = some moved) : moved.data.length = newh.data.length := by
  induction old generalizing newh with
  | nil =>
    cases done
    rfl
  | cons first rest ih =>
    rw [List.foldlM_cons] at done
    obtain ⟨next, step, others⟩ := Option.bind_eq_some_iff.mp done
    rw [ih others, move_length step]

omit [DecidableEq K] in
theorem rehash_one {h grown : Hash S} (size : h.size = 2 ^ 31) (done : rehash kind h = some grown) :
    grown.size = 2 ^ 32 ∧ grown.data.length = 1 := by
  obtain ⟨newh, made, rest⟩ := Option.bind_eq_some_iff.mp done
  split at rest
  · cases rest
  · obtain ⟨moved, folded, same⟩ := Option.bind_eq_some_iff.mp rest
    cases same
    have one : init kind (h.size * 2) = some ⟨1, 0, [kind.zeroed]⟩ := by
      rw [init, size]
      rfl
    rw [one] at made
    cases made
    refine ⟨?_, foldlM_move_length folded⟩
    change h.size * 2 = 2 ^ 32
    rw [size]
    rfl

omit [DecidableEq K] in
theorem findOrInsert_one {h next : Hash S} {key : K} {value : UInt32} (size : h.size = 2 ^ 31)
    (used : h.used = 3 * 2 ^ 29) (done : findOrInsert kind hash h key value = some (none, next)) :
    next.size = 2 ^ 32 ∧ next.data.length = 1 := by
  obtain ⟨hv, -, rest⟩ := Option.bind_eq_some_iff.mp done
  split at rest
  · cases rest
  · split at rest
    · rw [if_pos (by dsimp only; omega)] at rest
      obtain ⟨grown, regrown, same⟩ := Option.map_eq_some_iff.mp rest
      cases same
      apply rehash_one _ regrown
      exact size
    · cases rest

/-- The keys of `n` zero bytes, for the numbers below a limit. -/
def zeros (limit : Nat) : List (Bytes × UInt32) :=
  (List.range limit).map fun n => (List.replicate n 0, 0)

theorem not_mem_zeros {n limit : Nat} (le : limit ≤ n) :
    ∀ pair ∈ zeros limit, pair.1 ≠ List.replicate n 0 := by
  intro pair mem same
  obtain ⟨m, less, rfl⟩ := List.mem_map.mp mem
  have := congrArg List.length same
  rw [List.length_replicate, List.length_replicate] at this
  rw [List.mem_range] at less
  omega

theorem zeros_succ (limit : Nat) :
    zeros (limit + 1) = zeros limit ++ [(List.replicate limit 0, 0)] := by
  rw [zeros, List.range_succ, List.map_append]
  rfl

theorem distinctKeys_zeros (limit : Nat) : distinctKeys (zeros limit) = limit := by
  induction limit with
  | zero => rfl
  | succ limit ih =>
    rw [zeros_succ, distinctKeys_of_not_lookup (lookup_eq_none (not_mem_zeros le_rfl)), ih]

theorem of_injective : Function.Injective Result.of := by
  intro first second same
  cases first with
  | none =>
    cases second with
    | none => rfl
    | some value => cases same
  | some value =>
    cases second with
    | none => cases same
    | some value =>
      cases same
      rfl

theorem not_insertOnly_zeros {limit : Nat} (full : limit = 3 * 2 ^ 29) {capacity : UInt32}
    (large : capacity.toNat = 2 ^ 31) : ¬InsertOnly (fun _ => 5) capacity (zeros (limit + 2)) := by
  intro insertOnly
  have small : capacity.toNat % 2 ^ 32 = 2 ^ 31 := by
    rw [Nat.mod_eq_of_lt capacity.toNat_lt, large]
  obtain ⟨h, made, built⟩ := built_init (lawful_hashSi fun _ => 5) small.le
  obtain ⟨next, after, whole⟩ := @Built.run _ _ _ _ _ _ (lawful_hashSi fun _ => 5) _ _ _
    (zeros limit) built (fun _ _ => trivial) (by rw [List.nil_append, distinctKeys_zeros, full])
  have size : next.size = 2 ^ 31 := Nat.le_antisymm after.most (small.symm.trans_le after.least)
  have used : next.used = 3 * 2 ^ 29 := by
    rw [after.used, List.nil_append, distinctKeys_zeros, full]
  rw [InsertOnly, made, bind_some, zeros_succ, zeros_succ, List.append_assoc,
    List.singleton_append, answers_append, List.nil_append] at insertOnly
  replace insertOnly := (run_map Result.of).symm.trans insertOnly
  rw [whole, map_map] at insertOnly
  obtain ⟨results, ran, same⟩ := Option.map_eq_some_iff.mp insertOnly
  have results_ := List.append_cancel_left (List.map_injective_iff.mpr of_injective same)
  -- For a map the two keys behind the others are new.
  have new : results = [none, none] := by
    rw [results_, answers, answers, answers, lookup_eq_none (not_mem_zeros le_rfl), ← zeros_succ,
      lookup_eq_none (not_mem_zeros le_rfl)]
  rw [new, HashSi.run] at ran
  obtain ⟨⟨first, one⟩, called, ran⟩ := Option.bind_eq_some_iff.mp ran
  obtain ⟨others, ran, same⟩ := Option.bind_eq_some_iff.mp ran
  cases same
  obtain ⟨oneSize, oneLength⟩ := findOrInsert_one size used called
  rw [HashSi.run] at ran
  obtain ⟨⟨second, two⟩, called, -⟩ := Option.bind_eq_some_iff.mp ran
  obtain ⟨hv, found, -⟩ := Option.bind_eq_some_iff.mp called
  rw [find, oneSize] at found
  rw [findLoop_eq_none (by decide)] at found
  · cases found
  · apply List.getElem?_eq_none
    rw [oneLength]
    change 1 ≤ (5 : UInt32).toNat &&& 2 ^ 32 - 1
    decide

/-- The table is wrong for 3 * 2^29 + 2 keys. -/
theorem not_insertOnly : ¬∀ (hash : Bytes → UInt32) (capacity : UInt32)
    (calls : List (Bytes × UInt32)), InsertOnly hash capacity calls := by
  intro insertOnly
  have large : (0x80000000 : UInt32).toNat = 2 ^ 31 := by decide
  exact not_insertOnly_zeros rfl large (insertOnly _ _ _)

end PhpExts.Igbinary.HashSi
