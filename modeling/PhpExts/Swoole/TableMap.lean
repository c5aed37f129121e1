import PhpExts.Swoole.Table
import Mathlib

/-!
# A Swoole table is a map while no key hides another

A bucket in order is a list of pairs of a key and its data: the first pair is in
the root row, the others are in the chain, and every key is spelled in its field
with zero bytes behind it.  On such buckets the three operations are those of an
association list as long as two things hold.

* A walk does not stop too early: no row before the key's own row agrees with the
  key on its `keylen` bytes.  `strncmp` compares no more than these, so a row
  whose key is longer and begins with the key agrees.
* A row moved to the root overwrites the old key: `memcpy` copies the bytes of the
  new key without a terminator, so the rest of a longer key stays.

`Orderly` says this of every call of a run, on the state before the call, and
`behavesAsMap_of_orderly` that the table then is a map at every point of the run.
-/

namespace PhpExts.Swoole

open Function (update update_of_ne update_self)
open Option (map_some isSome_eq_false_iff isNone_iff_eq_none)

variable {δ : Type}

/-! ## Keys in their fields -/

def padded (key : List UInt8) : List UInt8 := key ++ List.replicate (keySize - key.length) 0

def IsKey (key : List UInt8) : Prop := 0 ∉ key ∧ key.length < keySize

theorem cString_append {key rest : List UInt8} (nonzero : 0 ∉ key) :
    cString (key ++ rest) = key ++ cString rest := by
  unfold cString
  rw [List.takeWhile_append_of_pos]
  intro b mem
  simp only [bne_iff_ne, ne_eq]
  rintro rfl
  exact nonzero mem

theorem cString_replicate (n : Nat) : cString (List.replicate n 0) = [] := by
  cases n with
  | zero => rfl
  | succ n => simp [cString, List.replicate_succ]

theorem cString_padded {key : List UInt8} (nonzero : 0 ∉ key) : cString (padded key) = key := by
  rw [padded, cString_append nonzero, cString_replicate, List.append_nil]

theorem strncmp_append (key rest : List UInt8) : strncmp (key ++ rest) key = true := by
  induction key with
  | nil => cases rest <;> rfl
  | cons b key ih => simp [strncmp, ih]

theorem memcpy_padded (key : List UInt8) : memcpy (padded key) key = padded key := by
  simp [memcpy, padded]

theorem memcpy_of_length_le {old key : List UInt8} (fits : key.length ≤ keySize)
    (shorter : old.length ≤ key.length) : memcpy (padded old) key = padded key := by
  unfold memcpy padded
  rw [List.drop_append, List.drop_of_length_le shorter, List.drop_replicate, List.nil_append]
  congr 2
  omega

/-! ## Buckets as association lists -/

def rowOf (pair : List UInt8 × δ) : Row δ := ⟨true, padded pair.1, pair.2⟩

def bucketOf (zero : δ) : List (List UInt8 × δ) → Bucket δ
  | [] => ⟨zeroRow zero, []⟩
  | pair :: pairs => ⟨rowOf pair, pairs.map rowOf⟩

def hasKey (key : List UInt8) (pair : List UInt8 × δ) : Bool := pair.1 == key

def lookup (pairs : List (List UInt8 × δ)) (key : List UInt8) : Option δ :=
  (pairs.find? (hasKey key)).map Prod.snd

/-- A walk for `key` over the rows passes no row that agrees with it before the one
that is spelled like it. -/
def Unshadowed (key : List UInt8) : List (Row δ) → Prop
  | [] => True
  | row :: rows => cString row.key = key ∨ row.agrees key = false ∧ Unshadowed key rows

instance Unshadowed.decidable (key : List UInt8) :
    (rows : List (Row δ)) → Decidable (Unshadowed key rows)
  | [] => .isTrue trivial
  | row :: rows =>
    have := Unshadowed.decidable key rows
    inferInstanceAs (Decidable (cString row.key = key ∨ row.agrees key = false ∧ _))

theorem agrees_rowOf_self (key : List UInt8) (data : δ) : (rowOf (key, data)).agrees key = true :=
  strncmp_append _ _

theorem Unshadowed.cons_rowOf {key : List UInt8} {pair : List UInt8 × δ} {rows : List (Row δ)}
    (nonzero : 0 ∉ pair.1) (unshadowed : Unshadowed key (rowOf pair :: rows)) :
    hasKey key pair = true ∧ (rowOf pair).agrees key = true ∨
      hasKey key pair = false ∧ (rowOf pair).agrees key = false ∧ Unshadowed key rows := by
  by_cases same : pair.1 = key
  · left
    subst same
    exact ⟨beq_self_eq_true _, agrees_rowOf_self _ _⟩
  · right
    have apart : hasKey key pair = false := by simpa [hasKey] using same
    rcases unshadowed with spelled | ⟨disagrees, rest⟩
    · exact absurd ((cString_padded nonzero).symm.trans spelled) same
    · exact ⟨apart, disagrees, rest⟩

theorem find?_rowOf {key : List UInt8} (pairs : List (List UInt8 × δ))
    (nonzero : ∀ pair ∈ pairs, 0 ∉ pair.1) (unshadowed : Unshadowed key (pairs.map rowOf)) :
    (pairs.map rowOf).find? (Row.agrees key) = (pairs.find? (hasKey key)).map rowOf := by
  induction pairs with
  | nil => rfl
  | cons pair pairs ih =>
    rcases unshadowed.cons_rowOf (nonzero pair (by simp)) with
      ⟨has, agrees⟩ | ⟨lacks, disagrees, rest⟩
    · simp [agrees, has]
    · simp only [List.map_cons, List.find?_cons, disagrees, lacks]
      exact ih (fun p mem => nonzero p (by simp [mem])) rest

/-- Write the data of a key that a list has. -/
def change (key : List UInt8) (write : δ → δ) : List (List UInt8 × δ) → List (List UInt8 × δ)
  | [] => []
  | pair :: pairs =>
    if hasKey key pair then (pair.1, write pair.2) :: pairs else pair :: change key write pairs

theorem enter_rowOf {key : List UInt8} {pair : List UInt8 × δ} (write : δ → δ)
    (has : hasKey key pair = true) :
    (rowOf pair).enter key write = rowOf (pair.1, write pair.2) := by
  have same : pair.1 = key := by simpa [hasKey] using has
  subst same
  simp [Row.enter, rowOf, memcpy_padded]

theorem enter_zeroRow {key : List UInt8} (zero : δ) (write : δ → δ)
    (fits : key.length ≤ keySize) : (zeroRow zero).enter key write = rowOf (key, write zero) := by
  have blank : padded [] = List.replicate keySize 0 := rfl
  simp only [Row.enter, zeroRow, rowOf, ← blank]
  rw [memcpy_of_length_le fits (Nat.zero_le _)]

theorem changeFirst_rowOf {key : List UInt8} (write : δ → δ) (pairs : List (List UInt8 × δ))
    (nonzero : ∀ pair ∈ pairs, 0 ∉ pair.1) (unshadowed : Unshadowed key (pairs.map rowOf)) :
    changeFirst (Row.agrees key) (Row.enter key write) (pairs.map rowOf) =
      (change key write pairs).map rowOf := by
  induction pairs with
  | nil => rfl
  | cons pair pairs ih =>
    rcases unshadowed.cons_rowOf (nonzero pair (by simp)) with
      ⟨has, agrees⟩ | ⟨lacks, disagrees, rest⟩
    · simp [changeFirst, change, agrees, has, enter_rowOf write has]
    · have tail := ih (fun p mem => nonzero p (by simp [mem])) rest
      simp [changeFirst, change, disagrees, lacks, tail]

theorem eraseP_rowOf {key : List UInt8} (pairs : List (List UInt8 × δ))
    (nonzero : ∀ pair ∈ pairs, 0 ∉ pair.1) (unshadowed : Unshadowed key (pairs.map rowOf)) :
    (pairs.map rowOf).eraseP (Row.agrees key) = (pairs.eraseP (hasKey key)).map rowOf := by
  induction pairs with
  | nil => rfl
  | cons pair pairs ih =>
    rcases unshadowed.cons_rowOf (nonzero pair (by simp)) with
      ⟨has, agrees⟩ | ⟨lacks, disagrees, rest⟩
    · simp [agrees, has]
    · have tail := ih (fun p mem => nonzero p (by simp [mem])) rest
      simp [disagrees, lacks, tail]

theorem any_rowOf {key : List UInt8} (pairs : List (List UInt8 × δ))
    (nonzero : ∀ pair ∈ pairs, 0 ∉ pair.1) (unshadowed : Unshadowed key (pairs.map rowOf)) :
    (pairs.map rowOf).any (Row.agrees key) = pairs.any (hasKey key) := by
  rw [← List.isSome_find?, find?_rowOf pairs nonzero unshadowed, Option.isSome_map,
    List.isSome_find?]

/-! ## The operations on a bucket -/

def enterPair (zero : δ) (key : List UInt8) (write : δ → δ) (pairs : List (List UInt8 × δ)) :
    List (List UInt8 × δ) :=
  if pairs.any (hasKey key) then change key write pairs else pairs ++ [(key, write zero)]

def Bucket.visible (bucket : Bucket δ) : List (Row δ) :=
  if bucket.root.active then bucket.rows else []

theorem visible_bucketOf (zero : δ) (pairs : List (List UInt8 × δ)) :
    (bucketOf zero pairs).visible = pairs.map rowOf := by
  cases pairs <;> rfl

variable {pairs : List (List UInt8 × δ)}

theorem swTableRowGet_bucketOf (zero : δ) {key : List UInt8}
    (nonzero : ∀ pair ∈ pairs, 0 ∉ pair.1) (unshadowed : Unshadowed key (pairs.map rowOf)) :
    swTableRowGet (bucketOf zero pairs) key = (pairs.find? (hasKey key)).map rowOf := by
  cases pairs with
  | nil =>
    simp only [swTableRowGet, bucketOf, Bucket.rows, List.find?_cons, List.find?_nil]
    cases (zeroRow zero).agrees key <;> rfl
  | cons pair pairs =>
    have rows : (bucketOf zero (pair :: pairs)).rows = (pair :: pairs).map rowOf := rfl
    rw [swTableRowGet, rows, find?_rowOf _ nonzero unshadowed]
    cases (pair :: pairs).find? (hasKey key) <;> rfl

theorem swTableRowSet_bucketOf (zero : δ) (idle : Bool) {key : List UInt8} (write : δ → δ)
     (fits : key.length ≤ keySize)
    (nonzero : ∀ pair ∈ pairs, 0 ∉ pair.1) (unshadowed : Unshadowed key (pairs.map rowOf)) :
    swTableRowSet zero idle (bucketOf zero pairs) key write =
      if pairs.any (hasKey key) || pairs.isEmpty || idle then
        some ⟨bucketOf zero (enterPair zero key write pairs),
          rowOf (key, write ((lookup pairs key).getD zero)),
          !pairs.any (hasKey key), !pairs.any (hasKey key) && !pairs.isEmpty⟩ else none := by
  cases pairs with
  | nil =>
    have entered := enter_zeroRow zero write fits
    simp [swTableRowSet, bucketOf, enterPair, zeroRow, lookup] at entered ⊢
    exact entered
  | cons pair pairs =>
    have rows : (bucketOf zero (pair :: pairs)).rows = (pair :: pairs).map rowOf := rfl
    have active : (bucketOf zero (pair :: pairs)).root.active = true := rfl
    rw [swTableRowSet, if_pos active, rows, find?_rowOf _ nonzero unshadowed]
    cases found : (pair :: pairs).find? (hasKey key) with
    | none =>
      have absent : (pair :: pairs).any (hasKey key) = false := by
        simpa using List.find?_eq_none.mp found
      simp [absent, enterPair, lookup, found, enter_zeroRow zero write fits, bucketOf]
    | some own =>
      have present : (pair :: pairs).any (hasKey key) = true :=
        List.any_eq_true.mpr ⟨own, List.mem_of_find?_eq_some found, List.find?_some found⟩
      have same : own.1 = key := by simpa [hasKey] using List.find?_some found
      have row : (rowOf own).enter key write =
          rowOf (key, write ((lookup (pair :: pairs) key).getD zero)) := by
        rw [enter_rowOf write (List.find?_some found), same]
        simp [lookup, found]
      simp only [map_some, row, present, enterPair, if_true, Bool.true_or,
        Bool.not_true, Bool.false_and, Option.some.injEq, Placed.mk.injEq, and_true]
      rcases unshadowed.cons_rowOf (nonzero pair (by simp)) with
        ⟨has, agrees⟩ | ⟨lacks, disagrees, rest⟩
      · simp [bucketOf, change, agrees, has, enter_rowOf write has]
      · have tail := changeFirst_rowOf write pairs
          (fun p mem => nonzero p (by simp [mem])) rest
        simp [bucketOf, change, disagrees, lacks, tail]

/-- Deleting the key of a root row that others hang on keeps the moved key apart from
the old one: the old key is not longer than the next row's. -/
def Overwritten (key : List UInt8) (bucket : Bucket δ) : Prop :=
  bucket.root.active = true → cString bucket.root.key = key →
    ∀ tmp ∈ bucket.chain.head?, key.length ≤ (cString tmp.key).length

theorem swTableRowDel_bucketOf (zero : δ) {key : List UInt8}
    (keys : ∀ pair ∈ pairs, IsKey pair.1) (unshadowed : Unshadowed key (pairs.map rowOf))
    (overwritten : Overwritten key (bucketOf zero pairs)) :
    swTableRowDel zero (bucketOf zero pairs) key = if pairs.any (hasKey key) then
        some (bucketOf zero (pairs.eraseP (hasKey key)), decide (1 < pairs.length)) else none := by
  have nonzero : ∀ pair ∈ pairs, 0 ∉ pair.1 := fun pair mem => (keys pair mem).1
  have active : ∀ pair : List UInt8 × δ, (rowOf pair).active = true := fun _ => rfl
  match pairs with
  | [] => rfl
  | [pair] =>
    rcases unshadowed.cons_rowOf (nonzero pair (by simp)) with
      ⟨has, agrees⟩ | ⟨lacks, disagrees, -⟩
    · simp [swTableRowDel, delLocked, bucketOf, clearsRoot, agrees, has, active]
    · simp [swTableRowDel, delLocked, bucketOf, clearsRoot, disagrees, lacks, active]
  | pair :: next :: rest =>
    have tail : ∀ p ∈ next :: rest, 0 ∉ p.1 := fun p mem => nonzero p (by simp [mem])
    rcases unshadowed.cons_rowOf (nonzero pair (by simp)) with
      ⟨has, agrees⟩ | ⟨lacks, disagrees, unshadowed'⟩
    · have same : pair.1 = key := by simpa [hasKey] using has
      have spelled : cString (rowOf next).key = next.1 := cString_padded (tail next (by simp))
      have shorter : pair.1.length ≤ next.1.length := by
        have moved := overwritten rfl ((cString_padded (nonzero pair (by simp))).trans same)
          (rowOf next) rfl
        rwa [spelled, ← same] at moved
      have field : memcpy (rowOf pair).key (cString (rowOf next).key) = (rowOf next).key := by
        rw [spelled]
        exact memcpy_of_length_le (keys next (by simp)).2.le shorter
      simp [swTableRowDel, delLocked, bucketOf, agrees, has, active, field]
      rfl
    · have erased := eraseP_rowOf _ tail unshadowed'
      have same := any_rowOf _ tail unshadowed'
      simp only [List.map_cons] at erased same
      rw [List.any_cons, lacks, Bool.false_or, List.eraseP_cons_of_neg (by simp [lacks])]
      simp only [swTableRowDel, delLocked, bucketOf, active, if_true, List.map_cons, disagrees,
        erased, same, Bool.false_eq_true, if_false]
      rfl

/-! ## Association lists without repeated keys -/

def Distinct (pairs : List (List UInt8 × δ)) : Prop := (pairs.map Prod.fst).Nodup

theorem lookup_eq_some_iff (distinct : Distinct pairs)
    {key : List UInt8} {data : δ} : lookup pairs key = some data ↔ (key, data) ∈ pairs := by
  induction pairs with
  | nil => simp [lookup]
  | cons pair pairs ih =>
    obtain ⟨head, rest⟩ := List.nodup_cons.mp distinct
    by_cases same : pair.1 = key
    · have absent : (key, data) ∉ pairs := fun mem =>
        head (List.mem_map.mpr ⟨_, mem, same.symm⟩)
      obtain ⟨k, d⟩ := pair
      simp only at same
      subst same
      simp [lookup, hasKey, absent, eq_comm]
    · have apart : hasKey key pair = false := by simpa [hasKey] using same
      have differs : (key, data) ≠ pair := fun eq => same (by rw [← eq])
      simp only [lookup, List.find?_cons, apart, List.mem_cons, differs, false_or]
      exact ih rest

theorem lookup_isSome {key : List UInt8} : (lookup pairs key).isSome = pairs.any (hasKey key) := by
  induction pairs with
  | nil => rfl
  | cons pair pairs ih =>
    cases has : hasKey key pair <;> simp_all [lookup]

theorem keys_change (key : List UInt8) (write : δ → δ) (pairs : List (List UInt8 × δ)) :
    (change key write pairs).map Prod.fst = pairs.map Prod.fst := by
  induction pairs with
  | nil => rfl
  | cons pair pairs ih => cases has : hasKey key pair <;> simp [change, has, ih]

theorem lookup_change_self {key : List UInt8} (write : δ → δ) (pairs : List (List UInt8 × δ)) :
    lookup (change key write pairs) key = (lookup pairs key).map write := by
  induction pairs with
  | nil => rfl
  | cons pair pairs ih =>
    cases has : hasKey key pair
    · simpa [lookup, change, has, List.find?_cons] using ih
    · have kept : hasKey key (pair.1, write pair.2) = true := has
      simp [lookup, change, has, kept]

theorem lookup_change_of_ne {key other : List UInt8} (ne : other ≠ key) (write : δ → δ)
    (pairs : List (List UInt8 × δ)) :
    lookup (change key write pairs) other = lookup pairs other := by
  induction pairs with
  | nil => rfl
  | cons pair pairs ih =>
    cases has : hasKey key pair
    · cases own : hasKey other pair
      · simpa [lookup, change, has, own, List.find?_cons] using ih
      · simp [lookup, change, has, own]
    · have same : pair.1 = key := by simpa [hasKey] using has
      have lacks : hasKey other pair = false := by
        simpa [hasKey, same] using ne.symm
      have lacks' : hasKey other (pair.1, write pair.2) = false := lacks
      simp [lookup, change, has, lacks, lacks']

theorem lookup_enterPair (zero : δ) (key : List UInt8) (write : δ → δ)
    (pairs : List (List UInt8 × δ)) : lookup (enterPair zero key write pairs) =
      update (lookup pairs) key (some (write ((lookup pairs key).getD zero))) := by
  funext other
  unfold enterPair
  by_cases same : other = key
  · subst same
    rw [update_self]
    split
    · rename_i present
      rw [← lookup_isSome] at present
      obtain ⟨data, found⟩ := Option.isSome_iff_exists.mp present
      rw [lookup_change_self, found]
      rfl
    · rename_i absent
      rw [← lookup_isSome, Bool.not_eq_true, isSome_eq_false_iff,
        isNone_iff_eq_none] at absent
      have none : pairs.find? (hasKey other) = none := by simpa [lookup] using absent
      simp [lookup, none, hasKey]
  · rw [update_of_ne same]
    split
    · exact lookup_change_of_ne same write pairs
    · have lacks : hasKey other (key, write zero) = false := by
        simpa [hasKey] using Ne.symm same
      simp [lookup, lacks]

theorem distinct_enterPair (zero : δ) (key : List UInt8) (write : δ → δ)
     (distinct : Distinct pairs) : Distinct (enterPair zero key write pairs) := by
  unfold enterPair Distinct
  split
  · rw [keys_change]
    exact distinct
  · rename_i absent
    rw [List.map_append, List.nodup_append]
    refine ⟨distinct, by simp, ?_⟩
    rintro k mem k' own rfl
    obtain ⟨pair, inside, eq⟩ := List.mem_map.mp mem
    simp only [List.map_cons, List.map_nil, List.mem_singleton] at own
    exact absent (List.any_eq_true.mpr ⟨pair, inside, by simp [hasKey, eq, own]⟩)

theorem length_enterPair (zero : δ) (key : List UInt8) (write : δ → δ)
    (pairs : List (List UInt8 × δ)) :
    (enterPair zero key write pairs).length = pairs.length + (!pairs.any (hasKey key)).toNat := by
  unfold enterPair
  split
  · rename_i present
    have length := congrArg List.length (keys_change key write pairs)
    simpa [present] using length
  · rename_i absent
    simp [absent]

theorem mem_enterPair {zero : δ} {key : List UInt8} {write : δ → δ} {pair : List UInt8 × δ}
    (mem : pair ∈ enterPair zero key write pairs) :
    pair.1 = key ∨ ∃ old ∈ pairs, old.1 = pair.1 := by
  have inside : pair.1 ∈ (enterPair zero key write pairs).map Prod.fst :=
    List.mem_map_of_mem mem
  unfold enterPair at inside
  split at inside
  · rw [keys_change] at inside
    obtain ⟨old, isOld, eq⟩ := List.mem_map.mp inside
    exact .inr ⟨old, isOld, eq⟩
  · rw [List.map_append, List.mem_append] at inside
    rcases inside with isOld | new
    · obtain ⟨old, isOld, eq⟩ := List.mem_map.mp isOld
      exact .inr ⟨old, isOld, eq⟩
    · exact .inl (by simpa using new)

theorem lookup_eraseP (distinct : Distinct pairs)
    (key : List UInt8) : lookup (pairs.eraseP (hasKey key)) = update (lookup pairs) key none := by
  funext other
  induction pairs with
  | nil => by_cases same : other = key <;> simp [lookup, update, same]
  | cons pair pairs ih =>
    obtain ⟨head, rest⟩ := List.nodup_cons.mp distinct
    cases has : hasKey key pair
    · rw [List.eraseP_cons_of_neg (by simp [has])]
      have tail := ih rest
      cases own : hasKey other pair
      · simpa [lookup, own, update, List.find?_cons] using tail
      · have ne : other ≠ key := by
          rintro rfl
          rw [own] at has
          cases has
        simp [lookup, own, update, ne]
    · rw [List.eraseP_cons_of_pos has]
      have same : pair.1 = key := by simpa [hasKey] using has
      by_cases eq : other = key
      · subst eq
        rw [update_self, ← isNone_iff_eq_none, ← isSome_eq_false_iff,
          lookup_isSome]
        rw [same] at head
        refine List.any_eq_false.mpr fun p mem present => ?_
        exact head (List.mem_map.mpr ⟨p, mem, by simpa [hasKey] using present⟩)
      · have lacks : hasKey other pair = false := by
          simpa [hasKey, same] using Ne.symm eq
        rw [update_of_ne eq]
        simp [lookup, lacks]

theorem distinct_eraseP (distinct : Distinct pairs)
    (key : List UInt8) : Distinct (pairs.eraseP (hasKey key)) :=
  distinct.sublist ((List.eraseP_sublist).map _)

theorem Config.index_lt (config : Config δ) (key : List UInt8) : config.index key < config.size := by
  have positive : 0 < config.size := Nat.two_pow_pos _
  have le : config.index key ≤ config.size - 1 := Nat.and_le_right
  omega

/-- The table holds the pairs of `contents`, each in the bucket of its key. -/
structure Represents (config : Config δ) (table : Table δ)
    (contents : Nat → List (List UInt8 × δ)) : Prop where
  rows : ∀ i, table.rows i = bucketOf config.zero (contents i)
  keys : ∀ i, ∀ pair ∈ contents i, IsKey pair.1 ∧ config.index pair.1 = i
  distinct : ∀ i, Distinct (contents i)
  count : table.rowNum = ∑ i ∈ Finset.range config.size, (contents i).length

def mapOf (config : Config δ) (contents : Nat → List (List UInt8 × δ)) (key : List UInt8) :
    Option δ := lookup (contents (config.index key)) key

def pairsOf (config : Config δ) (contents : Nat → List (List UInt8 × δ)) :
    List (List UInt8 × δ) := (List.range config.size).flatMap contents

theorem represents_create (config : Config δ) (idle : Nat) :
    Represents config (swTableCreate config idle) fun _ => [] :=
  ⟨fun _ => rfl, by simp, fun _ => List.nodup_nil, by simp [swTableCreate]⟩

section

variable {config : Config δ} {table : Table δ} {contents : Nat → List (List UInt8 × δ)}

theorem Represents.mem_pairsOf (represents : Represents config table contents)
    {key : List UInt8} {data : δ} :
    (key, data) ∈ pairsOf config contents ↔ mapOf config contents key = some data := by
  rw [pairsOf, List.mem_flatMap, mapOf, lookup_eq_some_iff (represents.distinct _)]
  constructor
  · rintro ⟨i, -, mem⟩
    rwa [(represents.keys i _ mem).2]
  · exact fun mem => ⟨_, List.mem_range.mpr (config.index_lt key), mem⟩

theorem Represents.distinct_pairsOf (represents : Represents config table contents) :
    Distinct (pairsOf config contents) := by
  rw [Distinct, pairsOf, List.map_flatMap, List.nodup_flatMap]
  refine ⟨fun i _ => represents.distinct i, ?_⟩
  refine List.nodup_range.imp ?_
  rintro i j ne k inside inside'
  obtain ⟨pair, mem, rfl⟩ := List.mem_map.mp inside
  obtain ⟨pair', member', same⟩ := List.mem_map.mp inside'
  have own := (represents.keys i _ mem).2
  have own' := (represents.keys j _ member').2
  rw [same] at own'
  exact ne (own.symm.trans own')

theorem Represents.length_pairsOf (represents : Represents config table contents) :
    (pairsOf config contents).length = table.rowNum := by
  rw [represents.count, pairsOf, List.length_flatMap]
  rfl

theorem Represents.rowNum_eq_ncard (represents : Represents config table contents) :
    table.rowNum = {key | mapOf config contents key ≠ none}.ncard := by
  have support : {key | mapOf config contents key ≠ none} =
      (((pairsOf config contents).map Prod.fst).toFinset : Set (List UInt8)) := by
    ext key
    simp only [Set.mem_ofPred_eq, List.coe_toFinset, List.mem_map, Option.ne_none_iff_exists']
    constructor
    · rintro ⟨data, present⟩
      exact ⟨_, represents.mem_pairsOf.mpr present, rfl⟩
    · rintro ⟨⟨k, data⟩, mem, rfl⟩
      exact ⟨data, represents.mem_pairsOf.mp mem⟩
  rw [support, Set.ncard_coe_finset, List.toFinset_card_of_nodup represents.distinct_pairsOf,
    List.length_map, represents.length_pairsOf]

theorem Represents.put (represents : Represents config table contents) {i : Nat}
    (inside : i < config.size) {pairs : List (List UInt8 × δ)} (distinct : Distinct pairs)
    (keys : ∀ pair ∈ pairs, IsKey pair.1 ∧ config.index pair.1 = i) {idle rowNum : Nat}
    (count : rowNum + (contents i).length = table.rowNum + pairs.length) : Represents config
      { table.put i (bucketOf config.zero pairs) with idle := idle, rowNum := rowNum }
      (update contents i pairs) := by
  constructor
  · intro j
    by_cases same : j = i
    · subst same
      simp [Table.put]
    · simp [Table.put, update_of_ne same, represents.rows j]
  · intro j pair mem
    by_cases same : j = i
    · subst same
      rw [update_self] at mem
      exact keys pair mem
    · rw [update_of_ne same] at mem
      exact represents.keys j pair mem
  · intro j
    by_cases same : j = i
    · subst same
      rw [update_self]
      exact distinct
    · rw [update_of_ne same]
      exact represents.distinct j
  · have mem : i ∈ Finset.range config.size := Finset.mem_range.mpr inside
    have before := represents.count
    rw [← Finset.add_sum_erase _ _ mem] at before
    rw [← Finset.add_sum_erase _ _ mem, update_self]
    have others : ∑ j ∈ (Finset.range config.size).erase i,
        (update contents i pairs j).length =
          ∑ j ∈ (Finset.range config.size).erase i, (contents j).length :=
      Finset.sum_congr rfl fun j isOther => by
        rw [update_of_ne (Finset.ne_of_mem_erase isOther)]
    simp only [others]
    omega

theorem mapOf_update (key : List UInt8) {pairs : List (List UInt8 × δ)} {value : Option δ}
    (changed : lookup pairs = update (lookup (contents (config.index key))) key value) :
    mapOf config (update contents (config.index key) pairs) =
      update (mapOf config contents) key value := by
  funext other
  unfold mapOf
  by_cases bucket : config.index other = config.index key
  · rw [bucket, update_self, changed]
    by_cases same : other = key
    · rw [same, update_self, update_self]
    · rw [update_of_ne same, update_of_ne same, bucket]
  · have ne : other ≠ key := fun same => bucket (by rw [same])
    rw [update_of_ne bucket, update_of_ne ne]

end

/-- What an iterator still has to yield, with `left` buckets to go from index `i`, of which it has
seen `seen` rows. -/
def remaining {α : Type} (contents : Nat → List α) : Nat → Nat → Nat → List α
  | 0, _, _ => []
  | left + 1, i, seen => (contents i).drop seen ++ remaining contents left (i + 1) 0

theorem remaining_zero {α : Type} (contents : Nat → List α) (left i : Nat) :
    remaining contents left i 0 = (List.range' i left).flatMap contents := by
  induction left generalizing i with
  | zero => rfl
  | succ left ih => simp [remaining, ih, List.range'_succ]

def Table.visible (table : Table δ) (i : Nat) : List (Row δ) := (table.rows i).visible

def rowsOf (config : Config δ) (table : Table δ) : List (Row δ) :=
  (List.range config.size).flatMap table.visible

/-- An iterator that has the rows to yield.  In a bucket of one row the index of the
collision stays at 0. -/
structure HasLeft (config : Config δ) (table : Table δ) (iterator : Iterator δ)
    (rows : List (Row δ)) : Prop where
  inside : iterator.absoluteIndex ≤ config.size
  single : (table.visible iterator.absoluteIndex).length ≤ 1 → iterator.collisionIndex = 0
  left : remaining table.visible (config.size - iterator.absoluteIndex) iterator.absoluteIndex
    iterator.collisionIndex = rows

def Arrived (config : Config δ) (table : Table δ) (iterator : Iterator δ) : List (Row δ) → Prop
  | [] => iterator.row = none
  | row :: rows => iterator.row = some row ∧ HasLeft config table iterator rows

theorem HasLeft.forward {config : Config δ} {table : Table δ} {iterator : Iterator δ}
    {rows : List (Row δ)} (hasLeft : HasLeft config table iterator rows) :
    Arrived config table (swTableIteratorForward config table iterator) rows := by
  unfold swTableIteratorForward
  obtain ⟨inside, single, left⟩ := hasLeft
  generalize rounds : config.size - iterator.absoluteIndex = n at left
  induction n generalizing iterator with
  | zero =>
    subst left
    rfl
  | succ n ih =>
    have next : config.size - (iterator.absoluteIndex + 1) = n := by omega
    have inside' : iterator.absoluteIndex + 1 ≤ config.size := by omega
    have here : table.visible iterator.absoluteIndex =
        (table.rows iterator.absoluteIndex).visible := rfl
    rw [remaining, here] at left
    rw [here] at single
    rw [forwardLoop]
    match bucket : table.rows iterator.absoluteIndex with
    | ⟨⟨false, key, data⟩, chain⟩ =>
      rw [bucket] at left single
      have zero : iterator.collisionIndex = 0 := single (Nat.zero_le 1)
      rw [zero] at left
      exact ih inside' (fun _ => zero) next (zero ▸ left)
    | ⟨⟨true, key, data⟩, []⟩ =>
      rw [bucket] at left single
      have zero : iterator.collisionIndex = 0 := single (Nat.le_refl 1)
      rw [zero] at left
      subst left
      simp only [Bool.not_true, Bool.false_eq_true, if_false, List.isEmpty_nil, if_true]
      refine ⟨rfl, inside', fun _ => zero, ?_⟩
      show remaining _ (config.size - (iterator.absoluteIndex + 1)) _ iterator.collisionIndex = _
      rw [next, zero]
      rfl
    | ⟨⟨true, key, data⟩, second :: rest⟩ =>
      rw [bucket] at left
      have rows : (⟨⟨true, key, data⟩, second :: rest⟩ : Bucket δ).visible =
        ⟨true, key, data⟩ :: second :: rest := rfl
      rw [rows] at left
      simp only [Bucket.rows, List.isEmpty_cons, Bool.not_true, Bool.false_eq_true, if_false]
      cases found : (⟨true, key, data⟩ :: second :: rest)[iterator.collisionIndex]? with
      | none =>
        rw [List.drop_eq_nil_of_le (List.getElem?_eq_none_iff.mp found), List.nil_append] at left
        exact ih inside' (fun _ => rfl) next left
      | some row =>
        obtain ⟨bound, rfl⟩ := List.getElem?_eq_some_iff.mp found
        rw [List.drop_eq_getElem_cons bound, List.cons_append] at left
        subst left
        refine ⟨rfl, inside, fun short => ?_, ?_⟩
        · simp [here, bucket, rows] at short
        · show remaining _ (config.size - iterator.absoluteIndex) iterator.absoluteIndex
            (iterator.collisionIndex + 1) = _
          rw [rounds, remaining, here, bucket, rows]

theorem HasLeft.foreachLoop {config : Config δ} {table : Table δ} (fuel : Nat)
    {iterator : Iterator δ} {rows : List (Row δ)} (enough : rows.length < fuel)
    (hasLeft : HasLeft config table iterator rows) :
    foreachLoop config table fuel (swTableIteratorForward config table iterator) = some rows := by
  induction rows generalizing iterator fuel with
  | nil =>
    have atEnd : (swTableIteratorForward config table iterator).row = none := hasLeft.forward
    cases fuel with
    | zero => cases enough
    | succ fuel => simp only [Swoole.foreachLoop, atEnd]
  | cons row rows ih =>
    obtain ⟨here, rest⟩ := hasLeft.forward
    cases fuel with
    | zero => cases enough
    | succ fuel =>
      have tail := ih fuel (Nat.lt_of_succ_lt_succ enough) rest
      simp only [Swoole.foreachLoop, here, tail, map_some]

theorem length_le_rowCount (config : Config δ) (table : Table δ) :
    (rowsOf config table).length ≤ rowCount config table := by
  rw [rowsOf, List.length_flatMap, rowCount]
  refine List.sum_le_sum fun i _ => ?_
  rw [Table.visible, Bucket.visible]
  split_ifs <;> simp

theorem hasLeft_rewind (config : Config δ) (table : Table δ) :
    HasLeft config table swTableIteratorRewind (rowsOf config table) := by
  refine ⟨Nat.zero_le _, fun _ => rfl, ?_⟩
  show remaining table.visible (config.size - 0) 0 0 = _
  rw [remaining_zero, rowsOf, List.range_eq_range', Nat.sub_zero]

theorem swTableForeach_eq (config : Config δ) (table : Table δ) :
    swTableForeach config table = some (rowsOf config table) :=
  (hasLeft_rewind config table).foreachLoop _ (Nat.lt_succ_of_le (length_le_rowCount config table))

section

variable {config : Config δ} {table : Table δ} {contents : Nat → List (List UInt8 × δ)}

theorem Represents.swTableForeach (represents : Represents config table contents) :
    swTableForeach config table = some ((pairsOf config contents).map rowOf) := by
  rw [swTableForeach_eq, rowsOf, pairsOf, List.map_flatMap]
  refine congrArg some (List.flatMap_congr fun i _ => ?_)
  rw [Table.visible, represents.rows, visible_bucketOf]

end

def Step.key : Step δ → Option (List UInt8)
  | .get key | .set key _ | .del key => some key
  | .foreach => none

def Step.Fits (step : Step δ) : Prop := ∀ key ∈ step.key, key.length < keySize

/-- What a map answers to a call, where `full` says that a new key may be refused. -/
def Answers (zero : δ) (full : Bool) (map : List UInt8 → Option δ) : Step δ → Outcome δ → Prop
  | .get key, outcome => outcome = .row ((map key).map (key, ·))
  | .set key write, outcome =>
    outcome = .row (some (key, write ((map key).getD zero))) ∨
      outcome = .row none ∧ map key = none ∧ full
  | .del key, outcome => outcome = .deleted (map key).isSome
  | .foreach, outcome => ∃ pairs, outcome = .rows (some pairs) ∧ Distinct pairs ∧
      ∀ key data, (key, data) ∈ pairs ↔ map key = some data

def follow (zero : δ) (map : List UInt8 → Option δ) : Step δ → Outcome δ → List UInt8 → Option δ
  | .set key write, .row (some _) =>
    update map key (some (write ((map key).getD zero)))
  | .del key, _ => update map key none
  | _, _ => map

/-- In every state of the run the table answers as the map of the calls so far does,
and counts its keys. -/
def BehavesAsMap (config : Config δ) : Table δ → (List UInt8 → Option δ) → List (Step δ) → Prop
  | table, map, [] => table.rowNum = {key | map key ≠ none}.ncard
  | table, map, step :: steps =>
    table.rowNum = {key | map key ≠ none}.ncard ∧
      Answers config.zero (table.idle = 0) map step (perform config table step).2 ∧
        BehavesAsMap config (perform config table step).1
          (follow config.zero map step (perform config table step).2) steps

/-- No key hides the call's key or is mixed with another, in the state before the
call. -/
def StepOrderly (config : Config δ) (table : Table δ) : Step δ → Prop
  | .get key => Unshadowed key (table.rows (config.index key)).visible
  | .set key _ => 0 ∉ key ∧ Unshadowed key (table.rows (config.index key)).visible
  | .del key => Unshadowed key (table.rows (config.index key)).visible ∧
      Overwritten key (table.rows (config.index key))
  | .foreach => True

instance (key : List UInt8) (bucket : Bucket δ) : Decidable (Overwritten key bucket) :=
  inferInstanceAs (Decidable (_ → _ → ∀ tmp ∈ bucket.chain.head?, _))

instance (config : Config δ) (table : Table δ) :
    (step : Step δ) → Decidable (StepOrderly config table step)
  | .get _ => inferInstanceAs (Decidable (Unshadowed _ _))
  | .set _ _ => inferInstanceAs (Decidable (_ ∧ Unshadowed _ _))
  | .del _ => inferInstanceAs (Decidable (Unshadowed _ _ ∧ Overwritten _ _))
  | .foreach => .isTrue trivial

def Orderly (config : Config δ) : Table δ → List (Step δ) → Prop
  | _, [] => True
  | table, step :: steps =>
    StepOrderly config table step ∧ Orderly config (perform config table step).1 steps

instance Orderly.decidable (config : Config δ) :
    (table : Table δ) → (steps : List (Step δ)) → Decidable (Orderly config table steps)
  | _, [] => .isTrue trivial
  | table, step :: steps =>
    have := Orderly.decidable config (perform config table step).1 steps
    inferInstanceAs (Decidable (StepOrderly config table step ∧ _))

theorem seen_rowOf {pair : List UInt8 × δ} (nonzero : 0 ∉ pair.1) : (rowOf pair).seen = pair := by
  simp [Row.seen, rowOf, cString_padded nonzero]

section

variable {config : Config δ} {table : Table δ} {contents : Nat → List (List UInt8 × δ)}

def Follows (config : Config δ) (table : Table δ) (contents : Nat → List (List UInt8 × δ))
    (step : Step δ) : Prop :=
  Answers config.zero (table.idle = 0) (mapOf config contents) step
      (perform config table step).2 ∧
    ∃ contents', Represents config (perform config table step).1 contents' ∧
      mapOf config contents' =
        follow config.zero (mapOf config contents) step (perform config table step).2

theorem Represents.nonzero (represents : Represents config table contents) (i : Nat) :
    ∀ pair ∈ contents i, 0 ∉ pair.1 :=
  fun pair mem => (represents.keys i pair mem).1.1

theorem Represents.get (represents : Represents config table contents) {key : List UInt8}
    (short : key.length < keySize) (orderly : StepOrderly config table (.get key)) :
    Follows config table contents (.get key) := by
  simp only [StepOrderly, represents.rows, visible_bucketOf] at orderly
  refine ⟨?_, contents, represents, rfl⟩
  simp only [perform, Answers, List.take_of_length_le short.le, represents.rows,
    swTableRowGet_bucketOf _ (represents.nonzero _) orderly, mapOf, lookup]
  cases found : (contents (config.index key)).find? (hasKey key) with
  | none => rfl
  | some pair =>
    have same : pair.1 = key := by simpa [hasKey] using List.find?_some found
    have seen := seen_rowOf (represents.nonzero _ pair (List.mem_of_find?_eq_some found))
    simp [seen, ← same]

theorem Represents.set (represents : Represents config table contents) {key : List UInt8}
    {write : δ → δ} (short : key.length < keySize)
    (orderly : StepOrderly config table (.set key write)) :
    Follows config table contents (.set key write) := by
  obtain ⟨nonzero, unshadowed⟩ := orderly
  simp only [represents.rows, visible_bucketOf] at unshadowed
  have result := swTableRowSet_bucketOf config.zero (0 < table.idle) write short.le
    (represents.nonzero _) unshadowed
  rw [← represents.rows] at result
  have seen : ∀ data : δ, (rowOf (key, data)).seen = (key, data) := fun _ => seen_rowOf nonzero
  unfold Follows
  simp only [perform, List.take_of_length_le short.le, result]
  split
  · rename_i refused
    -- the pool has no row for a new key: nothing changes
    simp only [ite_eq_right_iff, reduceCtorEq, imp_false, Bool.not_eq_true, Bool.or_eq_false_iff,
      decide_eq_false_iff_not, not_lt, Nat.le_zero_eq] at refused
    obtain ⟨⟨absent, -⟩, exhausted⟩ := refused
    refine ⟨.inr ⟨rfl, ?_, by simpa using exhausted⟩, contents, represents, rfl⟩
    rwa [← isNone_iff_eq_none, ← isSome_eq_false_iff, mapOf, lookup_isSome]
  · rename_i placed accepted
    obtain rfl : _ = placed := by
      split at accepted
      · exact Option.some.inj accepted
      · cases accepted
    refine ⟨.inl (by rw [seen]; rfl), _, represents.put (config.index_lt key)
      (distinct_enterPair config.zero key write (represents.distinct _)) ?_ ?_, ?_⟩
    · intro pair mem
      rcases mem_enterPair mem with new | ⟨old, isOld, same⟩
      · rw [new]
        exact ⟨⟨nonzero, short⟩, rfl⟩
      · rw [← same]
        exact represents.keys _ old isOld
    · rw [length_enterPair]
      exact (Nat.add_right_comm _ _ _).trans (Nat.add_assoc _ _ _)
    · rw [mapOf_update key (lookup_enterPair config.zero key write _)]
      rfl

theorem Represents.del (represents : Represents config table contents) {key : List UInt8}
    (short : key.length < keySize) (orderly : StepOrderly config table (.del key)) :
    Follows config table contents (.del key) := by
  obtain ⟨unshadowed, overwritten⟩ := orderly
  simp only [represents.rows, visible_bucketOf] at unshadowed overwritten
  have result := swTableRowDel_bucketOf config.zero
    (fun pair mem => (represents.keys _ pair mem).1) unshadowed overwritten
  rw [← represents.rows] at result
  have erased := lookup_eraseP (represents.distinct (config.index key)) key
  unfold Follows
  simp only [perform, List.take_of_length_le short.le, result]
  cases present : (contents (config.index key)).any (hasKey key) with
  | false =>
    have absent : mapOf config contents key = none := by
      rwa [← isNone_iff_eq_none, ← isSome_eq_false_iff, mapOf, lookup_isSome]
    refine ⟨by simp [Answers, absent], contents, represents, ?_⟩
    exact (Function.update_eq_self_iff.mpr absent.symm).symm
  | true =>
    have found : (mapOf config contents key).isSome = true := by
      rwa [mapOf, lookup_isSome]
    refine ⟨by simp [Answers, found], _, represents.put (config.index_lt key)
      (distinct_eraseP (represents.distinct _) key)
      (fun pair mem => represents.keys _ pair (List.mem_of_mem_eraseP mem)) ?_,
      mapOf_update key erased⟩
    obtain ⟨pair, mem, has⟩ := List.any_eq_true.mp present
    have shorter := List.length_eraseP_add_one mem has
    have counted : (contents (config.index key)).length ≤ table.rowNum := by
      rw [represents.count]
      exact Finset.single_le_sum (f := fun i => (contents i).length) (fun _ _ => Nat.zero_le _)
        (Finset.mem_range.mpr (config.index_lt key))
    omega

theorem Represents.foreach (represents : Represents config table contents) :
    Follows config table contents .foreach := by
  refine ⟨⟨pairsOf config contents, ?_, represents.distinct_pairsOf, fun key data =>
    represents.mem_pairsOf⟩, contents, represents, rfl⟩
  simp only [perform, represents.swTableForeach, map_some, List.map_map]
  congr 2
  refine (List.map_congr_left fun pair mem => ?_).trans (List.map_id _)
  obtain ⟨i, -, inside⟩ := List.mem_flatMap.mp mem
  exact seen_rowOf (represents.nonzero i pair inside)

theorem Represents.perform (represents : Represents config table contents) {step : Step δ}
    (fits : step.Fits) (orderly : StepOrderly config table step) :
    Follows config table contents step := by
  cases step with
  | get key => exact represents.get (fits key rfl) orderly
  | set key write => exact represents.set (fits key rfl) orderly
  | del key => exact represents.del (fits key rfl) orderly
  | foreach => exact represents.foreach

end

/-- **A table is a map in every run whose calls find no key hidden by another.** -/
theorem behavesAsMap_of_orderly (config : Config δ) (idle : Nat) (steps : List (Step δ))
    (fits : ∀ step ∈ steps, step.Fits)
    (orderly : Orderly config (swTableCreate config idle) steps) :
    BehavesAsMap config (swTableCreate config idle) (fun _ => none) steps := by
  have general : ∀ (steps : List (Step δ)) (table : Table δ)
      (contents : Nat → List (List UInt8 × δ)), Represents config table contents →
      (∀ step ∈ steps, step.Fits) → Orderly config table steps →
      BehavesAsMap config table (mapOf config contents) steps := by
    intro steps
    induction steps with
    | nil => exact fun table contents represents _ _ => represents.rowNum_eq_ncard
    | cons step steps ih =>
      intro table contents represents fits orderly
      obtain ⟨answers, contents', represents', follows⟩ :=
        represents.perform (fits step (by simp)) orderly.1
      refine ⟨represents.rowNum_eq_ncard, answers, ?_⟩
      rw [← follows]
      exact ih _ _ represents' (fun s member => fits s (by simp [member])) orderly.2
  exact general steps _ _ (represents_create config idle) fits orderly

/-! ## Runs on a table of 1024 rows -/

def phpConfig : Config Nat := ⟨10, swooleHashPhp, 0⟩

theorem behavesAsMap_shorterFirst :
    BehavesAsMap phpConfig (swTableCreate phpConfig 8) (fun _ => none)
      [.set [121] (· + 1), .set [121, 64] (· + 2), .get [121], .del [121], .get [121, 64], .foreach] :=
  behavesAsMap_of_orderly phpConfig 8 _ (by simp [Step.Fits, Step.key, keySize]) (by decide +kernel)

/-- With "y@" first, "y" is found before it is set.  After "wj" is deleted, the key "a"
of the same bucket is spelled "aj". -/
theorem not_behavesAsMap : ¬ BehavesAsMap phpConfig (swTableCreate phpConfig 8) (fun _ => none)
        [.set [121, 64] (· + 1), .get [121]] ∧
      ¬ BehavesAsMap phpConfig (swTableCreate phpConfig 8) (fun _ => none)
        [.set [119, 106] (· + 1), .set [97] (· + 2), .del [119, 106], .get [97]] := by
  constructor
  · rintro ⟨-, -, -, answers, -⟩
    change _ = Outcome.row _ at answers
    exact absurd answers (by decide +kernel)
  · rintro ⟨-, -, -, -, -, -, -, answers, -⟩
    change _ = Outcome.row _ at answers
    exact absurd answers (by decide +kernel)

end PhpExts.Swoole
