import Mathlib

/-!
# Hash tables with linear probing

A table of a power-of-two number of slots. A key is looked for from the slot its
hash selects onwards, wrapping around, until the key or an empty slot is met.
When three quarters of the slots are in use the pairs are moved to an array of
twice the size, which the caller's allocation routine provides: `capacity n` is
the number of slots it makes for a request of `n`, and `none` if it never
returns.

A table is `Sound` when it is a table the operations build: no key is stored
twice, every key is reached from its hash without meeting an empty slot, and a
slot is empty. On sound tables the find-or-insert operation is the one of an
insert-only map (`findOrInsert_found`, `findOrInsert_new`).
-/

namespace PhpExts.Library.Probing

/-- The number of slots, the number of pairs, and the slots. -/
structure Table (K V : Type) where
  size : Nat
  used : Nat
  data : List (Option (K × V))

variable {K V : Type} [DecidableEq K]

/-- Walk from slot `hv` until the key or an empty slot is met, or the walk has
gone `n` steps; `none` is an access past the end of the array. -/
def probe (data : List (Option (K × V))) (mask : Nat) (key : K) : Nat → Nat → Option Nat
  | 0, hv => some hv
  | n + 1, hv =>
    match data[hv]? with
    | none => none
    | some none => some hv
    | some (some pair) =>
      if pair.1 = key then some hv else probe data mask key n ((hv + 1) &&& mask)

/-- The slot of a key in an array, or the slot where it should be. -/
def locate (hash : K → Nat) (size : Nat) (data : List (Option (K × V))) (key : K) : Option Nat :=
  probe data (size - 1) key size (hash key &&& (size - 1))

/-- The slot of a key, or the slot where it should be. -/
def Table.find (hash : K → Nat) (t : Table K V) (key : K) : Option Nat :=
  locate hash t.size t.data key

/-- An empty array of `n` slots. -/
def Table.empty (n : Nat) : Table K V := ⟨n, 0, List.replicate n none⟩

/-- Move the pair of one slot of the old array to the new one. -/
def Table.move (hash : K → Nat) (fresh : Table K V) (slot : Option (K × V)) : Option (Table K V) :=
  match slot with
  | none => some fresh
  | some pair => do
    let hv ← fresh.find hash pair.1
    if hv < fresh.data.length then
      some { fresh with data := fresh.data.set hv (some pair) }
    else none

/-- Move every pair to an array for twice the size. -/
def Table.rehash (hash : K → Nat) (capacity : Nat → Option Nat) (t : Table K V) :
    Option (Table K V) := do
  let n ← capacity (t.size * 2)
  if t.data.length < t.size then none
  else
    let fresh ← (t.data.take t.size).foldlM (Table.move hash) (Table.empty n)
    some ⟨t.size * 2, t.used, fresh.data⟩

/-- Return the value stored under a key, or store one: the first component is the
value found. -/
def Table.findOrInsert (hash : K → Nat) (capacity : Nat → Option Nat) (t : Table K V) (key : K)
    (value : V) : Option (Option V × Table K V) := do
  let hv ← t.find hash key
  match t.data[hv]? with
  | none => none
  | some (some pair) => some (some pair.2, t)
  | some none =>
    let t : Table K V := ⟨t.size, t.used + 1, t.data.set hv (some (key, value))⟩
    if t.size / 4 * 3 < t.used then
      (t.rehash hash capacity).map fun grown => (none, grown)
    else some (none, t)

/-! ## Sound tables -/

/-- The number of occupied slots. -/
def occupied (data : List (Option (K × V))) : Nat := data.countP Option.isSome

/-- No key is stored twice, and every key is reached from its hash without
meeting an empty slot. -/
structure Placed (hash : K → Nat) (size : Nat) (data : List (Option (K × V))) : Prop where
  length : data.length = size
  pow : ∃ j, size = 2 ^ j
  distinct : ∀ (i j : Nat) k v w, data[i]? = some (some (k, v)) →
    data[j]? = some (some (k, w)) → i = j
  reached : ∀ (i : Nat) k v, data[i]? = some (some (k, v)) →
    ∃ m, m < size ∧ (hash k + m) % size = i ∧
      ∀ m', m' < m → ∃ pair, data[(hash k + m') % size]? = some (some pair)

/-- The tables the operations build from an empty one. -/
structure Table.Sound (hash : K → Nat) (t : Table K V) : Prop where
  placed : Placed hash t.size t.data
  counted : occupied t.data = t.used
  room : t.used < t.size

section

omit [DecidableEq K]

theorem exists_empty {data : List (Option (K × V))} (free : occupied data < data.length) :
    ∃ i : Nat, i < data.length ∧ data[i]? = some none := by
  induction data with
  | nil => exact absurd free (by simp)
  | cons slot data ih =>
    cases slot with
    | none => exact ⟨0, by simp, by simp⟩
    | some pair =>
      have inner : occupied data < data.length := by
        simpa [occupied] using free
      obtain ⟨i, bound, empty⟩ := ih inner
      exact ⟨i + 1, by simpa using bound, by simpa using empty⟩

theorem occupied_set {data : List (Option (K × V))} {i : Nat} (pair : K × V)
    (empty : data[i]? = some none) : occupied (data.set i (some pair)) = occupied data + 1 := by
  induction data generalizing i with
  | nil => simp at empty
  | cons slot data ih =>
    cases i with
    | zero =>
      have none_slot : slot = none := by simpa using empty
      subst none_slot
      simp [occupied]
    | succ i =>
      have inner := ih (i := i) (by simpa using empty)
      simp only [occupied] at inner
      cases slot <;> simp [occupied, inner]

theorem mem_set_iff {data : List (Option (K × V))} {i : Nat} {key k : K} {value v : V}
    (empty : data[i]? = some none) :
    some (k, v) ∈ data.set i (some (key, value)) ↔ some (k, v) ∈ data ∨ (k = key ∧ v = value) := by
  have bound : i < data.length := (List.getElem?_eq_some_iff.mp empty).1
  constructor
  · intro mem
    obtain ⟨j, found⟩ := List.getElem?_of_mem mem
    rw [List.getElem?_set] at found
    by_cases same : i = j
    · rw [if_pos same, if_pos bound] at found
      right
      simpa using (Option.some.inj (Option.some.inj found)).symm
    · rw [if_neg same] at found
      exact .inl (List.mem_of_getElem? found)
  · rintro (mem | ⟨rfl, rfl⟩)
    · obtain ⟨j, found⟩ := List.getElem?_of_mem mem
      have differs : i ≠ j := by
        rintro rfl
        rw [empty] at found
        cases found
      exact List.mem_of_getElem? (i := j) (by rw [List.getElem?_set, if_neg differs, found])
    · exact List.mem_of_getElem? (i := i) (by rw [List.getElem?_set, if_pos rfl, if_pos bound])

theorem exists_steps {size i : Nat} (start : Nat) (bound : i < size) :
    ∃ m, m < size ∧ (start + m) % size = i := by
  have pos : 0 < size := by omega
  have startBound := Nat.mod_lt start pos
  refine ⟨(i + (size - start % size)) % size, Nat.mod_lt _ pos, ?_⟩
  rw [Nat.add_mod_mod, ← Nat.mod_add_mod,
    show start % size + (i + (size - start % size)) = i + size by omega,
    Nat.add_mod_right, Nat.mod_eq_of_lt bound]

theorem steps_injective {size start m m' : Nat} (bound : m < size) (bound' : m' < size)
    (same : (start + m) % size = (start + m') % size) : m = m' := by
  have := Nat.ModEq.add_left_cancel' start (show start + m ≡ start + m' [MOD size] from same)
  simpa [Nat.ModEq, Nat.mod_eq_of_lt bound, Nat.mod_eq_of_lt bound'] using this

theorem mask_eq_mod {size : Nat} (pow : ∃ j, size = 2 ^ j) (n : Nat) :
    n &&& (size - 1) = n % size := by
  obtain ⟨j, rfl⟩ := pow
  exact Nat.and_two_pow_sub_one_eq_mod n j

end

theorem probe_eq {data : List (Option (K × V))} {size : Nat} (pow : ∃ j, size = 2 ^ j)
    {key : K} {start stop : Nat}
    (before : ∀ m, m < stop → ∃ pair, data[(start + m) % size]? = some (some pair) ∧ pair.1 ≠ key)
    (here : data[(start + stop) % size]? = some none ∨
      ∃ v, data[(start + stop) % size]? = some (some (key, v)))
    {m n : Nat} (le : m ≤ stop) (fuel : stop - m < n) :
    probe data (size - 1) key n ((start + m) % size) = some ((start + stop) % size) := by
  induction n generalizing m with
  | zero => omega
  | succ n ih =>
    rcases Nat.lt_or_eq_of_le le with less | rfl
    · obtain ⟨pair, found, differs⟩ := before m less
      have next : ((start + m) % size + 1) &&& (size - 1) = (start + (m + 1)) % size := by
        rw [mask_eq_mod pow, Nat.mod_add_mod, Nat.add_assoc]
      rw [probe, found]
      simp only [if_neg differs, next]
      exact ih less (by omega)
    · rcases here with empty | ⟨v, found⟩
      · rw [probe, empty]
      · rw [probe, found]
        simp

theorem locate_eq {hash : K → Nat} {size : Nat} {data : List (Option (K × V))}
    (pow : ∃ j, size = 2 ^ j) {key : K} {stop : Nat} (bound : stop < size) (before : ∀ m, m < stop →
      ∃ pair, data[(hash key + m) % size]? = some (some pair) ∧ pair.1 ≠ key)
    (here : data[(hash key + stop) % size]? = some none ∨
      ∃ v, data[(hash key + stop) % size]? = some (some (key, v))) :
    locate hash size data key = some ((hash key + stop) % size) := by
  have walked := probe_eq pow before here (Nat.zero_le stop) (n := size) (by omega)
  rw [locate, mask_eq_mod pow]
  simpa using walked

namespace Placed

variable {hash : K → Nat} {size : Nat} {data : List (Option (K × V))}

theorem locate_stored (placed : Placed hash size data) {i : Nat} {key : K} {v : V}
    (stored : data[i]? = some (some (key, v))) : locate hash size data key = some i := by
  obtain ⟨stop, bound, rfl, before⟩ := placed.reached i key v stored
  refine locate_eq placed.pow bound (fun m less => ?_) (.inr ⟨v, stored⟩)
  obtain ⟨pair, found⟩ := before m less
  refine ⟨pair, found, fun same => ?_⟩
  have equal := placed.distinct _ _ key pair.2 v (by rw [found, ← same]) stored
  have := steps_injective (less.trans bound) bound equal
  omega

theorem locate_absent (placed : Placed hash size data) (free : occupied data < size) {key : K}
    (absent : ∀ v, some (key, v) ∉ data) :
    ∃ stop, stop < size ∧ locate hash size data key = some ((hash key + stop) % size) ∧
      data[(hash key + stop) % size]? = some none ∧
      ∀ m, m < stop → ∃ pair, data[(hash key + m) % size]? = some (some pair) := by
  classical
  have someEmpty : ∃ m, m < size ∧ data[(hash key + m) % size]? = some none := by
    obtain ⟨i, bound, empty⟩ := exists_empty (placed.length ▸ free)
    obtain ⟨m, less, rfl⟩ := exists_steps (hash key) (placed.length ▸ bound)
    exact ⟨m, less, empty⟩
  have stops := Nat.find_spec someEmpty
  have before : ∀ m, m < Nat.find someEmpty →
      ∃ pair, data[(hash key + m) % size]? = some (some pair) := by
    intro m less
    have inside : (hash key + m) % size < data.length := by
      rw [placed.length]
      exact Nat.mod_lt _ (Nat.lt_of_le_of_lt (Nat.zero_le _) free)
    rcases slot : data[(hash key + m) % size]? with _ | (_ | pair)
    · exact absurd (List.getElem?_eq_none_iff.mp slot) (by omega)
    · exact absurd ⟨less.trans stops.1, slot⟩ (Nat.find_min someEmpty less)
    · exact ⟨pair, rfl⟩
  refine ⟨_, stops.1, locate_eq placed.pow stops.1 (fun m less => ?_) (.inl stops.2), stops.2,
    before⟩
  obtain ⟨pair, found⟩ := before m less
  refine ⟨pair, found, fun same => absent pair.2 ?_⟩
  rw [← same]
  exact List.mem_of_getElem? found

omit [DecidableEq K] in
theorem set (placed : Placed hash size data) {key : K} (value : V) {stop : Nat}
    (bound : stop < size) (absent : ∀ v, some (key, v) ∉ data)
    (empty : data[(hash key + stop) % size]? = some none)
    (before : ∀ m, m < stop → ∃ pair, data[(hash key + m) % size]? = some (some pair)) :
    Placed hash size (data.set ((hash key + stop) % size) (some (key, value))) := by
  have inside : (hash key + stop) % size < data.length := (List.getElem?_eq_some_iff.mp empty).1
  have stays : ∀ {j : Nat} {pair}, data[j]? = some (some pair) →
      (data.set ((hash key + stop) % size) (some (key, value)))[j]? = some (some pair) := by
    intro j pair found
    have differs : (hash key + stop) % size ≠ j := by
      rintro rfl
      rw [empty] at found
      cases found
    rw [List.getElem?_set, if_neg differs, found]
  have origin : ∀ {j : Nat} {k v},
      (data.set ((hash key + stop) % size) (some (key, value)))[j]? = some (some (k, v)) →
      (j = (hash key + stop) % size ∧ k = key) ∨ data[j]? = some (some (k, v)) := by
    intro j k v found
    rw [List.getElem?_set] at found
    by_cases same : (hash key + stop) % size = j
    · rw [if_pos same, if_pos inside] at found
      have : key = k := congrArg Prod.fst (Option.some.inj (Option.some.inj found))
      exact .inl ⟨same.symm, this.symm⟩
    · rw [if_neg same] at found
      exact .inr found
  refine ⟨by rw [List.length_set, placed.length], placed.pow, ?_, ?_⟩
  · intro i j k v w first second
    rcases origin first with ⟨rfl, rfl⟩ | old
    · rcases origin second with ⟨rfl, -⟩ | old'
      · rfl
      · exact absurd (List.mem_of_getElem? old') (absent w)
    · rcases origin second with ⟨rfl, rfl⟩ | old'
      · exact absurd (List.mem_of_getElem? old) (absent v)
      · exact placed.distinct i j k v w old old'
  · intro i k v found
    rcases origin found with ⟨rfl, rfl⟩ | old
    · refine ⟨stop, bound, rfl, fun m less => ?_⟩
      obtain ⟨pair, there⟩ := before m less
      exact ⟨pair, stays there⟩
    · obtain ⟨m, less, rfl, path⟩ := placed.reached i k v old
      refine ⟨m, less, rfl, fun m' less' => ?_⟩
      obtain ⟨pair, there⟩ := path m' less'
      exact ⟨pair, stays there⟩

end Placed

/-! ## Growing -/

section

variable {hash : K → Nat}

omit [DecidableEq K] in
theorem placed_empty {n : Nat} (pow : ∃ j, n = 2 ^ j) :
    Placed hash n (List.replicate n (none : Option (K × V))) := by
  have nothing : ∀ {i : Nat} {pair : K × V},
      (List.replicate n (none : Option (K × V)))[i]? ≠ some (some pair) := by
    intro i pair found
    have := (List.mem_replicate.mp (List.mem_of_getElem? found)).2
    cases this
  exact ⟨List.length_replicate, pow, fun i j k v w found => absurd found nothing,
    fun i k v found => absurd found nothing⟩

omit [DecidableEq K] in
theorem occupied_replicate (n : Nat) : occupied (List.replicate n (none : Option (K × V))) = 0 := by
  simp [occupied]

/-- Moving the pairs of an array, whose keys are distinct, to an array with room
for them stores exactly these pairs. -/
theorem foldlM_move (old : List (Option (K × V))) (fresh : Table K V)
    (placed : Placed hash fresh.size fresh.data)
    (free : occupied fresh.data + occupied old < fresh.size)
    (apart : ∀ k v w, some (k, v) ∈ old → some (k, w) ∉ fresh.data)
    (distinct : ∀ (i j : Nat) k v w, old[i]? = some (some (k, v)) →
      old[j]? = some (some (k, w)) → i = j) :
    ∃ moved : Table K V, old.foldlM (Table.move hash) fresh = some moved ∧
      moved.size = fresh.size ∧ Placed hash fresh.size moved.data ∧
      occupied moved.data = occupied fresh.data + occupied old ∧
      ∀ k v, some (k, v) ∈ moved.data ↔ some (k, v) ∈ fresh.data ∨ some (k, v) ∈ old := by
  induction old generalizing fresh with
  | nil => exact ⟨fresh, rfl, rfl, placed, by simp [occupied], by simp⟩
  | cons slot old ih =>
    have distinct' : ∀ (i j : Nat) k v w, old[i]? = some (some (k, v)) →
        old[j]? = some (some (k, w)) → i = j := fun i j k v w first second => by
      have := distinct (i + 1) (j + 1) k v w (by simpa using first) (by simpa using second)
      omega
    cases slot with
    | none =>
      obtain ⟨moved, run, rest⟩ := ih fresh placed (by simpa [occupied] using free)
        (fun k v w mem => apart k v w (.tail _ mem)) distinct'
      exact ⟨moved, by simpa [Table.move] using run, by simpa [occupied] using rest⟩
    | some pair =>
      obtain ⟨key, value⟩ := pair
      have count : occupied (some (key, value) :: old) = occupied old + 1 := by
        simp [occupied]
      obtain ⟨stop, bound, located, empty, before⟩ := placed.locate_absent (by omega)
        (fun w => apart key value w (.head _))
      have inside := (List.getElem?_eq_some_iff.mp empty).1
      let next : Table K V := { fresh with
        data := fresh.data.set ((hash key + stop) % fresh.size) (some (key, value)) }
      have stepped : Table.move hash fresh (some (key, value)) = some next := by
        simp [Table.move, Table.find, located, inside, next]
      obtain ⟨moved, run, sameSize, placed', counted, members⟩ :=
        ih next
          (placed.set value bound (fun w => apart key value w (.head _)) empty before)
          (by
            change occupied (fresh.data.set _ _) + _ < fresh.size
            rw [occupied_set _ empty]
            omega)
          (by
            intro k v w mem stored
            rcases (mem_set_iff empty).mp stored with there | ⟨rfl, rfl⟩
            · exact apart k v w (.tail _ mem) there
            · obtain ⟨j, found⟩ := List.getElem?_of_mem mem
              have := distinct 0 (j + 1) k w v (by simp) (by simpa using found)
              omega)
          distinct'
      refine ⟨moved, by simpa [List.foldlM_cons, stepped] using run, sameSize, placed', ?_, ?_⟩
      · rw [counted]
        change occupied (fresh.data.set _ _) + _ = _
        rw [occupied_set _ empty]
        omega
      · intro k v
        rw [members]
        change some (k, v) ∈ fresh.data.set _ _ ∨ _ ↔ _
        rw [mem_set_iff empty, List.mem_cons]
        constructor
        · rintro ((there | ⟨rfl, rfl⟩) | there)
          · exact .inl there
          · exact .inr (.inl rfl)
          · exact .inr (.inr there)
        · rintro (there | there | there)
          · exact .inl (.inl there)
          · cases there
            exact .inl (.inr ⟨rfl, rfl⟩)
          · exact .inr there

theorem rehash_eq (capacity : Nat → Option Nat) {t : Table K V}
    (placed : Placed hash t.size t.data) (counted : occupied t.data = t.used)
    (full : t.used ≤ t.size) (allocates : capacity (t.size * 2) = some (t.size * 2)) :
    ∃ grown : Table K V, t.rehash hash capacity = some grown ∧ grown.Sound hash ∧
      grown.size = t.size * 2 ∧ grown.used = t.used ∧
      ∀ k v, some (k, v) ∈ grown.data ↔ some (k, v) ∈ t.data := by
  obtain ⟨j, size⟩ := placed.pow
  have pos : 0 < t.size := size ▸ Nat.two_pow_pos j
  have doubled : ∃ j, t.size * 2 = 2 ^ j := ⟨j + 1, by rw [size, pow_succ]⟩
  obtain ⟨moved, run, sameSize, placed', count, members⟩ :=
    foldlM_move t.data (Table.empty (t.size * 2)) (placed_empty doubled)
      (by
        have : occupied (Table.empty (K := K) (V := V) (t.size * 2)).data = 0 :=
          occupied_replicate _
        simp only [Table.empty] at this ⊢
        omega)
      (fun k v w _ stored => by
        have := (List.mem_replicate.mp stored).2
        cases this)
      placed.distinct
  have none_there : ∀ k v, some (k, v) ∉ (Table.empty (K := K) (V := V) (t.size * 2)).data :=
    fun k v stored => by
      have := (List.mem_replicate.mp stored).2
      cases this
  have empty_count : occupied (Table.empty (K := K) (V := V) (t.size * 2)).data = 0 :=
    occupied_replicate _
  refine ⟨⟨t.size * 2, t.used, moved.data⟩, ?_, ⟨placed', ?_, ?_⟩, rfl, rfl, ?_⟩
  · simp only [Table.rehash, allocates, Option.bind_eq_bind, Option.bind_some]
    rw [if_neg (by rw [placed.length]; exact lt_irrefl _), ← placed.length, List.take_length,
      placed.length, run]
    rfl
  · change occupied moved.data = t.used
    omega
  · change t.used < t.size * 2
    omega
  · intro k v
    rw [members k v]
    exact ⟨fun there => there.resolve_left (none_there k v), .inr⟩

end

/-! ## The operation of a map -/

variable {hash : K → Nat} {capacity : Nat → Option Nat} {t : Table K V}

theorem findOrInsert_found (sound : t.Sound hash) {key : K} {value stored : V}
    (mem : some (key, stored) ∈ t.data) :
    t.findOrInsert hash capacity key value = some (some stored, t) := by
  obtain ⟨i, found⟩ := List.getElem?_of_mem mem
  simp [Table.findOrInsert, Table.find, sound.placed.locate_stored found, found]

/-- **A new key is stored with its value and the other pairs stay.** -/
theorem findOrInsert_new (sound : t.Sound hash) {key : K} {value : V}
    (absent : ∀ v, some (key, v) ∉ t.data)
    (allocates : t.size / 4 * 3 < t.used + 1 → capacity (t.size * 2) = some (t.size * 2)) :
    ∃ t' : Table K V, t.findOrInsert hash capacity key value = some (none, t') ∧
      t'.Sound hash ∧ t'.used = t.used + 1 ∧
      t'.size = (if t.size / 4 * 3 < t.used + 1 then t.size * 2 else t.size) ∧
      ∀ k v, some (k, v) ∈ t'.data ↔ some (k, v) ∈ t.data ∨ (k = key ∧ v = value) := by
  obtain ⟨placed, counted, room⟩ := sound
  obtain ⟨stop, bound, located, empty, before⟩ := placed.locate_absent (by omega) absent
  have placed' := placed.set value bound absent empty before
  have counted' := occupied_set (key, value) empty
  have opened : t.findOrInsert hash capacity key value =
      if t.size / 4 * 3 < t.used + 1 then
        (Table.rehash hash capacity
          ⟨t.size, t.used + 1, t.data.set ((hash key + stop) % t.size) (some (key, value))⟩).map
          fun grown => (none, grown)
      else some (none,
        ⟨t.size, t.used + 1, t.data.set ((hash key + stop) % t.size) (some (key, value))⟩) := by
    simp [Table.findOrInsert, Table.find, located, empty]
  rw [opened]
  by_cases grows : t.size / 4 * 3 < t.used + 1
  · obtain ⟨grown, run, sound', size, used, members⟩ := rehash_eq capacity
      (t := ⟨t.size, t.used + 1, t.data.set ((hash key + stop) % t.size) (some (key, value))⟩)
      placed' (by rw [counted', counted]) (by change t.used + 1 ≤ t.size; omega) (allocates grows)
    refine ⟨grown, by rw [if_pos grows, run]; rfl, sound', used, by rw [if_pos grows, size], ?_⟩
    intro k v
    rw [members k v, mem_set_iff empty]
  · refine ⟨_, by rw [if_neg grows], ⟨placed', by rw [counted', counted], ?_⟩, rfl,
      by rw [if_neg grows], fun k v => mem_set_iff empty⟩
    change t.used + 1 < t.size
    omega

end PhpExts.Library.Probing
