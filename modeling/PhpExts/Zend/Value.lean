import PhpExts.Zend.Heap

/-!
# Plain values

A `PhpValue` is a value without references and objects: a tree, where the heap
has zvals that may be shared. `Denotes` says that a zval holds such a value and
that every zval of it lies in a given region of the heap; so the value stays
when the heap changes outside of the region (`Denotes.frame`).

Two values are the `Same` if at every level they have the same keys in the same
order; the index of the next append may differ.
-/

namespace PhpExts.Zend

/-- A value built of scalars and arrays. An array has its index for the next append
and its entries. -/
inductive PhpValue where
  | null
  | bool (b : Bool)
  | long (l : Int)
  | double (bits : Nat)
  | string (s : Bytes)
  | array (next : Nat) (entries : List (HashKey × PhpValue))

mutual

def PhpValue.depth : PhpValue → Nat
  | .array _ entries => entriesDepth entries + 1
  | _ => 0

def entriesDepth : List (HashKey × PhpValue) → Nat
  | [] => 0
  | (_, v) :: rest => max v.depth (entriesDepth rest)

end

def PhpValue.scalar : PhpValue → Option ZValue
  | .null => some .null
  | .bool b => some (.bool b)
  | .long l => some (.long l)
  | .double bits => some (.double bits)
  | .string s => some (.string s)
  | .array _ _ => none

theorem PhpValue.eq_of_scalar {v w : PhpValue} {z : ZValue} (first : v.scalar = some z)
    (second : w.scalar = some z) : v = w := by
  cases v <;> cases first <;> cases w <;> simp_all [PhpValue.scalar]

mutual

def Denotes (h : Heap) (region : Addr → Prop) (a : Addr) : PhpValue → Prop
  | .array next entries =>
    region a ∧ h.isRef a = false ∧
      ∃ buckets, h.value a = some (.array ⟨buckets, next⟩) ∧ DenoteEntries h region buckets entries
  | v => region a ∧ h.isRef a = false ∧ h.value a = v.scalar

def DenoteEntries (h : Heap) (region : Addr → Prop) :
    List (HashKey × Addr) → List (HashKey × PhpValue) → Prop
  | buckets, [] => buckets = []
  | buckets, (key, v) :: entries =>
    ∃ a rest, buckets = (key, a) :: rest ∧ Denotes h region a v ∧ DenoteEntries h region rest entries

end

mutual

/-- The same keys in the same order, at every level. -/
def Same : PhpValue → PhpValue → Prop
  | .array _ entries, v => ∃ next entries', v = .array next entries' ∧ SameEntries entries entries'
  | v, w => w = v

def SameEntries : List (HashKey × PhpValue) → List (HashKey × PhpValue) → Prop
  | [], entries => entries = []
  | (key, v) :: rest, entries =>
    ∃ v' rest', entries = (key, v') :: rest' ∧ Same v v' ∧ SameEntries rest rest'

end

section

variable {h h' : Heap} {region region' : Addr → Prop} {a : Addr} {v w : PhpValue}

theorem denotes_scalar {z : ZValue} (scalar : v.scalar = some z) :
    Denotes h region a v ↔ region a ∧ h.isRef a = false ∧ h.value a = some z := by
  cases v with
  | array => cases scalar
  | _ => simp only [Denotes, scalar]

mutual

theorem Denotes.frame (same : ∀ a, region a → h'.zvals a = h.zvals a)
    (wider : ∀ a, region a → region' a) :
    (v : PhpValue) → {a : Addr} → Denotes h region a v → Denotes h' region' a v
  | .array next entries, a, denotes => by
    simp only [Denotes] at denotes ⊢
    obtain ⟨inside, isRef, buckets, value, filled⟩ := denotes
    refine ⟨wider a inside, ?_, buckets, ?_, DenoteEntries.frame same wider entries filled⟩
    · rwa [Heap.isRef, same a inside]
    · rwa [Heap.value, same a inside]
  | .null, a, denotes | .bool _, a, denotes | .long _, a, denotes | .double _, a, denotes
  | .string _, a, denotes => by
    simp only [Denotes] at denotes ⊢
    obtain ⟨inside, isRef, value⟩ := denotes
    refine ⟨wider a inside, ?_, ?_⟩
    · rwa [Heap.isRef, same a inside]
    · rwa [Heap.value, same a inside]

theorem DenoteEntries.frame (same : ∀ a, region a → h'.zvals a = h.zvals a)
    (wider : ∀ a, region a → region' a) :
    (entries : List (HashKey × PhpValue)) → {buckets : List (HashKey × Addr)} →
    DenoteEntries h region buckets entries → DenoteEntries h' region' buckets entries
  | [], _, filled => filled
  | (_, v) :: entries, _, filled => by
    simp only [DenoteEntries] at filled ⊢
    obtain ⟨a, rest, rfl, denotes, filled⟩ := filled
    exact ⟨a, rest, rfl, Denotes.frame same wider v denotes,
      DenoteEntries.frame same wider entries filled⟩

end

mutual

theorem Denotes.unique :
    (v : PhpValue) → {a : Addr} → {w : PhpValue} → Denotes h region a v → Denotes h region' a w →
    v = w
  | .array next entries, a, w, first, second => by
    simp only [Denotes] at first
    obtain ⟨-, -, buckets, value, filled⟩ := first
    cases w with
    | array next' entries' =>
      simp only [Denotes] at second
      obtain ⟨-, -, buckets', value', filled'⟩ := second
      rw [value] at value'
      obtain ⟨rfl, rfl⟩ : buckets = buckets' ∧ next = next' := by
        simpa using value'
      rw [DenoteEntries.unique entries filled filled']
    | _ =>
      simp only [Denotes, PhpValue.scalar] at second
      rw [value] at second
      simp at second
  | .null, a, w, first, second | .bool _, a, w, first, second | .long _, a, w, first, second
  | .double _, a, w, first, second | .string _, a, w, first, second => by
    simp only [Denotes, PhpValue.scalar] at first
    cases w with
    | array =>
      simp only [Denotes] at second
      obtain ⟨-, -, _, value, _⟩ := second
      rw [first.2.2] at value
      simp at value
    | _ =>
      simp only [Denotes, PhpValue.scalar] at second
      exact PhpValue.eq_of_scalar rfl (second.2.2.symm.trans first.2.2)

theorem DenoteEntries.unique :
    (entries : List (HashKey × PhpValue)) → {buckets : List (HashKey × Addr)} →
    {entries' : List (HashKey × PhpValue)} → DenoteEntries h region buckets entries →
    DenoteEntries h region' buckets entries' → entries = entries'
  | [], _, [], _, _ => rfl
  | [], _, (key, v) :: rest, first, second => by
    simp only [DenoteEntries] at first second
    obtain ⟨a, rest', same, -, -⟩ := second
    rw [first] at same
    cases same
  | (key, v) :: entries, buckets, entries', first, second => by
    simp only [DenoteEntries] at first
    obtain ⟨a, rest, rfl, denotes, filled⟩ := first
    cases entries' with
    | nil => simp only [DenoteEntries] at second; cases second
    | cons entry' rest' =>
      obtain ⟨key', v'⟩ := entry'
      simp only [DenoteEntries] at second
      obtain ⟨a', buckets', same, denotes', filled'⟩ := second
      obtain ⟨⟨rfl, rfl⟩, rfl⟩ := by simpa using same
      rw [Denotes.unique v denotes denotes', DenoteEntries.unique entries filled filled']

end

theorem DenoteEntries.keys :
    (entries : List (HashKey × PhpValue)) → {buckets : List (HashKey × Addr)} →
    DenoteEntries h region buckets entries → buckets.map Prod.fst = entries.map Prod.fst
  | [], _, filled => by simp only [DenoteEntries] at filled; rw [filled]; rfl
  | (_, _) :: entries, _, filled => by
    simp only [DenoteEntries] at filled
    obtain ⟨a, rest, rfl, -, filled⟩ := filled
    simp only [List.map_cons, DenoteEntries.keys entries filled]

theorem DenoteEntries.lookup (key : HashKey) :
    (entries : List (HashKey × PhpValue)) → {buckets : List (HashKey × Addr)} →
    DenoteEntries h region buckets entries →
    (buckets.lookup key = none ∧ entries.lookup key = none) ∨
      ∃ a v, buckets.lookup key = some a ∧ entries.lookup key = some v ∧ Denotes h region a v
  | [], _, filled => by
    simp only [DenoteEntries] at filled
    rw [filled]
    exact .inl ⟨rfl, rfl⟩
  | (key', v) :: entries, _, filled => by
    simp only [DenoteEntries] at filled
    obtain ⟨a, rest, rfl, denotes, filled⟩ := filled
    simp only [List.lookup_cons]
    by_cases same : key = key'
    · simp only [same, beq_self_eq_true]
      exact .inr ⟨a, v, rfl, rfl, denotes⟩
    · rw [beq_eq_false_iff_ne.mpr same]
      exact DenoteEntries.lookup key entries filled

theorem DenoteEntries.append :
    (entries : List (HashKey × PhpValue)) → {buckets : List (HashKey × Addr)} → {key : HashKey} →
    DenoteEntries h region buckets entries → Denotes h region a v →
    DenoteEntries h region (buckets ++ [(key, a)]) (entries ++ [(key, v)])
  | [], _, _, filled, denotes => by
    simp only [DenoteEntries] at filled
    rw [filled]
    exact ⟨a, [], rfl, denotes, rfl⟩
  | (_, _) :: entries, _, _, filled, denotes => by
    simp only [DenoteEntries] at filled
    obtain ⟨b, rest, rfl, here, filled⟩ := filled
    exact ⟨b, _, rfl, here, DenoteEntries.append entries filled denotes⟩

end

theorem depth_of_mem :
    (entries : List (HashKey × PhpValue)) → {entry : HashKey × PhpValue} → entry ∈ entries →
    entry.2.depth ≤ entriesDepth entries
  | [], _, mem => by cases mem
  | (_, v) :: rest, entry, mem => by
    simp only [entriesDepth]
    rcases List.mem_cons.mp mem with rfl | mem
    · exact le_max_left _ _
    · exact (depth_of_mem rest mem).trans (le_max_right _ _)

end PhpExts.Zend
