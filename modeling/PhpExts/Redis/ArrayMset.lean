import PhpExts.Igbinary.PropertyTable
import PhpExts.Redis.ArrayMget
import Mathlib

/-!
# `RedisArray::mset`

The pairs of a multi-set are spread over the nodes of the array by their keys, and every node is sent
the array of its pairs. An integer key is spelled as an unsigned number there, whereas a multi-get
spells it with its sign; and what happens where a key has no node is left open (`delivers_iff`).
-/

namespace PhpExts.Redis.ArrayMset

open PhpExts.Zend (Bytes WordSize HashKey HashTable decimal handleNumeric symtableKey)
open PhpExts.Igbinary (printLong)
open PhpExts.Igbinary.PropertyTable (digits digits_eq digits_spec printLong_eq)
open List (map_congr_left map_flatMap map_map)

section

variable {V : Type}

/-- The spelling of a key by which a node is looked up, an integer with `%lu`. -/
def lookupKey (w : WordSize) : HashKey → Bytes
  | .string s => s
  | .index h => printLong (h % w.modulus)

/-- The spelling of a key in a command, an integer with `%ld`. -/
def commandKey : HashKey → Bytes
  | .string s => s
  | .index h => printLong h

def zArgarray (w : WordSize) (n : Nat) : List (Bytes × V) → List Nat → HashTable V → HashTable V
  | (key, value) :: pairs, p :: pos, table =>
    zArgarray w n pairs pos (if p ≠ n then table else table.symtableUpdate w key value)
  | _, _, table => table

/-- `generic_mset`: the pairs of the command. -/
def genericMset (table : HashTable V) : List (Bytes × V) :=
  table.buckets.map fun bucket => (commandKey bucket.1, bucket.2)

/-- `RedisArray::mset`: what is sent to the nodes; `none` where `pos[i]` is read unset or lies
outside the array. -/
def mset (w : WordSize) (ra : RedisArray) (buckets : List (HashKey × V)) :
    Option (List (Nat × List (Bytes × V))) :=
  if buckets = [] then some []
  else
    let pairs := buckets.map fun bucket => (lookupKey w bucket.1, bucket.2)
    match associate ra (pairs.map fun pair => .string pair.1) with
    | .error _ => none
    | .ok pos => some (((List.range ra.count).filter fun n => pos.count n ≠ 0).map fun n =>
      (n, genericMset (zArgarray w n pairs pos HashTable.empty)))

end

/-! ## The property and its condition -/

section

variable {V : Type} (w : WordSize) (ra : RedisArray) (buckets : List (HashKey × V))

def nodeOfKey (key : HashKey) : Option Nat := nodeOf ra (.string (commandKey key))

/-- What a node holds under a key when it has run its commands. -/
def stored (sent : List (Nat × List (Bytes × V))) (n : Nat) (key : Bytes) : Option V :=
  ((sent.filter fun call => call.1 = n).flatMap Prod.snd).reverse.lookup key

def Delivers : Prop :=
  ∃ sent, mset w ra buckets = some sent ∧
    (sent.flatMap fun call => call.2.map fun pair => (some call.1, pair)).Perm
      (buckets.map fun bucket => (nodeOfKey ra bucket.1, commandKey bucket.1, bucket.2)) ∧
    ∀ bucket ∈ buckets, ∀ n ∈ nodeOfKey ra bucket.1,
      stored sent n (commandKey bucket.1) = some bucket.2

structure Keys : Prop where
  nodup : (buckets.map Prod.fst).Nodup
  range : ∀ h, .index h ∈ buckets.map Prod.fst → w.longMin ≤ h ∧ h ≤ w.longMax

/-- The condition: no integer key is negative, every key has a node, and no integer key is also there
as a string. -/
structure Plain : Prop where
  nonneg : ∀ h, .index h ∈ buckets.map Prod.fst → 0 ≤ h
  node : ∀ key ∈ buckets.map Prod.fst, (nodeOfKey ra key).isSome
  apart : ((buckets.map Prod.fst).map commandKey).Nodup

end

section

variable {w : WordSize}

theorem digits_decimal {ds : Bytes} (some_ : ds ≠ []) (range : ∀ d ∈ ds, 48 ≤ d ∧ d ≤ 57)
    (canonical : ds.head? = some 48 → ds.length = 1) : digits (decimal ds) = ds := by
  induction ds using List.reverseRecOn with
  | nil => exact absurd rfl some_
  | append_singleton front d ih =>
    have value : decimal (front ++ [d]) = decimal front * 10 + (d.toNat - 48) := by
      rw [decimal, List.foldl_append]
      rfl
    obtain ⟨low, high⟩ := range d (by simp)
    have low' : 48 ≤ d.toNat := low
    have high' : d.toNat ≤ 57 := high
    have back : UInt8.ofNat (48 + (d.toNat - 48)) = d := by
      rw [Nat.add_sub_cancel' low', UInt8.ofNat_toNat]
    by_cases none : front = []
    · subst none
      have small : decimal ([] ++ [d]) < 10 := by
        rw [value]
        simp only [decimal, List.foldl_nil]
        omega
      rw [digits_eq, if_pos small, value]
      simpa [decimal] using back
    · have head : (front ++ [d]).head? = front.head? := List.head?_append_of_ne_nil _ none
      have notZero : front.head? ≠ some 48 := by
        intro zero
        have := canonical (head.trans zero)
        rw [List.length_append] at this
        exact none (List.length_eq_zero_iff.mp (by simpa using this))
      have same := ih none (fun other mem => range other (List.mem_append_left _ mem))
        fun zero => absurd zero notZero
      have positive : decimal front ≠ 0 := by
        intro zero
        rw [zero] at same
        exact notZero (same ▸ rfl)
      have large : ¬ decimal (front ++ [d]) < 10 := by omega
      have quotient : decimal (front ++ [d]) / 10 = decimal front := by omega
      have rest : decimal (front ++ [d]) % 10 = d.toNat - 48 := by omega
      rw [digits_eq, if_neg large, quotient, rest, same, back]

theorem printLong_handleNumeric {s : Bytes} {h : Int} (numeric : handleNumeric w s = some h) :
    printLong h = s := by
  unfold handleNumeric at numeric
  by_cases sign : s.head? = some 45
  · obtain ⟨ds, rfl⟩ : ∃ ds, s = 45 :: ds := List.head?_eq_some_iff.mp sign
    simp only [List.head?_cons, if_true, List.tail_cons] at numeric
    split_ifs at numeric with bad zero fits
    obtain rfl := Option.some_inj.mp numeric
    obtain ⟨some_, range⟩ := not_or.mp bad
    have notZero : ds.head? ≠ some 48 := by
      intro head
      have := List.length_pos_iff.mpr some_
      exact zero ⟨head, by rw [List.length_cons]; omega⟩
    have same := digits_decimal some_ (by simpa using range) fun head => absurd head notZero
    have positive : decimal ds ≠ 0 := by
      intro none
      rw [none] at same
      exact notZero (same ▸ rfl)
    rw [printLong_eq, if_neg (by omega), Int.natAbs_neg, Int.natAbs_natCast, same]
  · simp only [sign, if_false] at numeric
    split_ifs at numeric with bad zero fits
    obtain rfl := Option.some_inj.mp numeric
    obtain ⟨some_, range⟩ := not_or.mp bad
    have same := digits_decimal some_ (by simpa using range) fun head => by
      have := List.length_pos_iff.mpr some_
      have := not_and.mp zero head
      omega
    rw [printLong_eq, if_pos (Int.natCast_nonneg _), Int.natAbs_natCast, same]

theorem commandKey_symtableKey (s : Bytes) : commandKey (symtableKey w s) = s := by
  rw [symtableKey]
  cases numeric : handleNumeric w s with
  | none => rfl
  | some h => exact printLong_handleNumeric numeric

theorem lookupKey_of_nonneg {key : HashKey}
    (inside : ∀ h, key = .index h → 0 ≤ h ∧ h ≤ w.longMax) : lookupKey w key = commandKey key := by
  cases key with
  | string s => rfl
  | index h =>
    obtain ⟨low, high⟩ := inside h rfl
    have positive := w.modulus_pos
    have within : h < w.modulus := by
      rw [WordSize.longMax] at high
      omega
    rw [lookupKey, commandKey, Int.emod_eq_of_lt low within]

theorem printLong_ne {h h' : Int} (negative : h < 0) (nonneg : 0 ≤ h') :
    printLong h' ≠ printLong h := by
  rw [printLong_eq, printLong_eq, if_pos nonneg, if_neg (by omega)]
  intro same
  have sign : (45 : UInt8) ∈ digits h'.natAbs := same ▸ .head _
  exact absurd ((digits_spec _).1 45 sign).1 (by decide)

end

section

variable {α V : Type} {w : WordSize} {ra : RedisArray}

theorem lookup_of_mem {l : List (Bytes × V)} (nodup : (l.map Prod.fst).Nodup) {key : Bytes}
    {value : V} (mem : (key, value) ∈ l) : l.lookup key = some value := by
  induction l with
  | nil => cases mem
  | cons entry l ih =>
    obtain ⟨fresh, nodup⟩ := List.nodup_cons.mp nodup
    rcases List.mem_cons.mp mem with rfl | later
    · rw [List.lookup_cons, beq_self_eq_true]
    · have ne : (key == entry.1) = false := by
        apply beq_eq_false_iff_ne.mpr
        rintro rfl
        exact fresh (List.mem_map.mpr ⟨_, later, rfl⟩)
      rw [List.lookup_cons, ne]
      exact ih nodup later

theorem perm_flatMap_filter {f : α → Nat} {ns : List Nat} (nodup : ns.Nodup) {l : List α}
    (inside : ∀ a ∈ l, f a ∈ ns) : (ns.flatMap fun n => l.filter fun a => f a = n).Perm l := by
  induction ns generalizing l with
  | nil =>
    cases l with
    | nil => exact .nil
    | cons a l => exact absurd (inside a (.head _)) List.not_mem_nil
  | cons n ns ih =>
    obtain ⟨fresh, nodup⟩ := List.nodup_cons.mp nodup
    have others : (ns.flatMap fun m => l.filter fun a => f a = m) =
        ns.flatMap fun m => (l.filter fun a => !decide (f a = n)).filter fun a => f a = m := by
      apply List.flatMap_congr
      intro m mem
      rw [List.filter_filter]
      apply List.filter_congr
      intro a _
      by_cases same : f a = m
      · have ne : m ≠ n := fun equal => fresh (equal ▸ mem)
        simp [same, ne]
      · simp [same]
    rw [List.flatMap_cons, others]
    refine ((ih nodup ?_).append_left _).trans (List.filter_append_perm _ l)
    intro a mem
    obtain ⟨isThere, other⟩ := List.mem_filter.mp mem
    rcases List.mem_cons.mp (inside a isThere) with same | later
    · exact absurd same (by simpa using other)
    · exact later

theorem perm_calls {f : α → Nat} {m : Nat} {l : List α} (inside : ∀ a ∈ l, f a < m) :
    ((((List.range m).filter fun n => (l.map f).count n ≠ 0).map fun n =>
        (n, l.filter fun a => f a = n)).flatMap fun call => call.2.map fun a =>
          (some call.1, a)).Perm (l.map fun a => (some (f a), a)) := by
  have classes : ((((List.range m).filter fun n => (l.map f).count n ≠ 0).map fun n =>
      (n, l.filter fun a => f a = n)).flatMap fun call => call.2.map fun a => (some call.1, a)) =
      (((List.range m).filter fun n => (l.map f).count n ≠ 0).flatMap fun n =>
        l.filter fun a => f a = n).map fun a => (some (f a), a) := by
    rw [List.flatMap_map, map_flatMap]
    apply List.flatMap_congr
    intro n _
    apply map_congr_left
    intro a mem
    rw [of_decide_eq_true (List.mem_filter.mp mem).2]
  rw [classes]
  apply (perm_flatMap_filter (List.nodup_range.filter _) _).map
  intro a mem
  apply List.mem_filter.mpr
  refine ⟨List.mem_range.mpr (inside a mem), ?_⟩
  have counted : 0 < (l.map f).count (f a) :=
    List.count_pos_iff.mpr (List.mem_map.mpr ⟨a, mem, rfl⟩)
  simpa using counted.ne'

theorem zArgarray_map (f : Bytes × V → Nat) (n : Nat) (pairs : List (Bytes × V))
    (table : HashTable V) :
    zArgarray w n pairs (pairs.map f) table = (pairs.filter fun pair => f pair = n).foldl
      (fun table pair => table.symtableUpdate w pair.1 pair.2) table := by
  induction pairs generalizing table with
  | nil => rfl
  | cons pair pairs ih =>
    rw [List.map_cons, zArgarray, ih, List.filter_cons]
    by_cases own : f pair = n <;> simp [own]

theorem foldl_of_nodup (pairs : List (Bytes × V)) (table : HashTable V)
    (nodup : (table.keys ++ pairs.map fun pair => symtableKey w pair.1).Nodup) :
    (pairs.foldl (fun table pair => table.symtableUpdate w pair.1 pair.2) table).buckets =
      table.buckets ++ pairs.map fun pair => (symtableKey w pair.1, pair.2) := by
  induction pairs generalizing table with
  | nil => simp
  | cons pair pairs ih =>
    rw [List.map_cons] at nodup
    have fresh : symtableKey w pair.1 ∉ table.keys := fun mem =>
      (List.nodup_append.mp nodup).2.2 _ mem _ (.head _) rfl
    have added : (table.symtableUpdate w pair.1 pair.2).buckets =
        table.buckets ++ [(symtableKey w pair.1, pair.2)] := HashTable.update_of_notMem fresh
    have keys : (table.symtableUpdate w pair.1 pair.2).keys =
        table.keys ++ [symtableKey w pair.1] := by
      rw [HashTable.keys, added, List.map_append]
      rfl
    rw [List.foldl_cons, ih, added, List.append_assoc]
    · rfl
    · rw [keys, List.append_assoc]
      exact nodup

theorem foldl_keys (pairs : List (Bytes × V)) (table : HashTable V) (nodup : table.keys.Nodup) :
    (pairs.foldl (fun table pair => table.symtableUpdate w pair.1 pair.2) table).keys.Nodup ∧
      ∀ key ∈ (pairs.foldl (fun table pair => table.symtableUpdate w pair.1 pair.2) table).keys,
        key ∈ table.keys ∨ ∃ pair ∈ pairs, key = symtableKey w pair.1 := by
  induction pairs generalizing table with
  | nil => exact ⟨nodup, fun key mem => Or.inl mem⟩
  | cons pair pairs ih =>
    have keys : (table.symtableUpdate w pair.1 pair.2).keys =
        if symtableKey w pair.1 ∈ table.keys then table.keys
        else table.keys ++ [symtableKey w pair.1] :=
      PhpExts.Igbinary.PropertyTable.keys_update w table _ _
    have nodup' : (table.symtableUpdate w pair.1 pair.2).keys.Nodup := by
      rw [keys]
      split_ifs with present
      · exact nodup
      · exact List.nodup_append.mpr ⟨nodup, List.nodup_singleton _, fun a mem b last =>
          fun same => present (List.mem_singleton.mp last ▸ same ▸ mem)⟩
    obtain ⟨final, sources⟩ := ih _ nodup'
    refine ⟨final, fun key mem => ?_⟩
    rcases sources key mem with before | ⟨source, isLater, same⟩
    · rw [keys] at before
      split_ifs at before with present
      · exact Or.inl before
      · rcases List.mem_append.mp before with old | new
        · exact Or.inl old
        · exact Or.inr ⟨pair, .head _, List.mem_singleton.mp new⟩
    · exact Or.inr ⟨source, .tail _ isLater, same⟩

end

section

variable {V : Type} {w : WordSize} {ra : RedisArray} {buckets : List (HashKey × V)}
  {sent : List (Nat × List (Bytes × V))}

def home (ra : RedisArray) (pair : Bytes × V) : Nat := place ra (.string pair.1)

def spelled (w : WordSize) (buckets : List (HashKey × V)) : List (Bytes × V) :=
  buckets.map fun bucket => (lookupKey w bucket.1, bucket.2)

def share (w : WordSize) (ra : RedisArray) (pairs : List (Bytes × V)) (n : Nat) : HashTable V :=
  (pairs.filter fun pair => home ra pair = n).foldl
    (fun table pair => table.symtableUpdate w pair.1 pair.2) HashTable.empty

theorem mset_eq_some (some_ : buckets ≠ [])
    (every : ∀ pair ∈ spelled w buckets, (nodeOf ra (.string pair.1)).isSome) :
    mset w ra buckets = some (((List.range ra.count).filter fun n =>
      ((spelled w buckets).map (home ra)).count n ≠ 0).map fun n =>
        (n, genericMset (share w ra (spelled w buckets) n))) := by
  have found : associate ra ((spelled w buckets).map fun pair => .string pair.1) =
      .ok ((spelled w buckets).map (home ra)) := by
    rw [associate_eq_ok, map_map]
    · rfl
    · intro key mem
      obtain ⟨pair, isPair, rfl⟩ := List.mem_map.mp mem
      exact every pair isPair
  rw [mset, if_neg some_]
  simp only [← spelled.eq_def, found]
  congr 1
  apply map_congr_left
  intro n _
  rw [zArgarray_map, share]

theorem mset_eq_none (some_ : buckets ≠ [])
    (missing : ¬ ∀ pair ∈ spelled w buckets, (nodeOf ra (.string pair.1)).isSome) :
    mset w ra buckets = none := by
  have undefined : associate ra ((spelled w buckets).map fun pair => .string pair.1) =
      .error .undefined := by
    apply associate_eq_undefined
    intro known
    apply missing
    clear missing
    generalize spelled w buckets = pairs at known ⊢
    induction pairs with
    | nil => nofun
    | cons pair pairs ih =>
      rcases known with none | ⟨node, known⟩
      · cases none
      · exact List.forall_mem_cons.mpr ⟨node, ih known⟩
  rw [mset, if_neg some_]
  simp only [← spelled.eq_def, undefined]

theorem keys_share (pairs : List (Bytes × V)) (n : Nat) :
    ((genericMset (share w ra pairs n)).map Prod.fst).Nodup ∧
      ∀ key ∈ (genericMset (share w ra pairs n)).map Prod.fst,
        place ra (.string key) = n ∧ ∃ pair ∈ pairs, key = pair.1 := by
  obtain ⟨nodup, sources⟩ := foldl_keys (w := w) (pairs.filter fun pair => home ra pair = n)
    HashTable.empty List.nodup_nil
  have keys : (genericMset (share w ra pairs n)).map Prod.fst =
      (share w ra pairs n).keys.map commandKey := by
    rw [genericMset, HashTable.keys, map_map, map_map]
    rfl
  have source : ∀ key ∈ (share w ra pairs n).keys,
      ∃ pair ∈ pairs.filter fun pair => home ra pair = n, key = symtableKey w pair.1 :=
    fun key mem => (sources key mem).resolve_left List.not_mem_nil
  rw [keys]
  refine ⟨List.Nodup.map_on (fun a isA b isB same => ?_) nodup, fun key mem => ?_⟩
  · obtain ⟨pair, -, rfl⟩ := source a isA
    obtain ⟨pair', -, rfl⟩ := source b isB
    rw [commandKey_symtableKey, commandKey_symtableKey] at same
    rw [same]
  · obtain ⟨stored, isStored, rfl⟩ := List.mem_map.mp mem
    obtain ⟨pair, isPair, rfl⟩ := source stored isStored
    obtain ⟨isThere, own⟩ := List.mem_filter.mp isPair
    rw [commandKey_symtableKey]
    exact ⟨of_decide_eq_true own, pair, isThere, rfl⟩

theorem keys_sent (result : mset w ra buckets = some sent) :
    ((sent.flatMap Prod.snd).map Prod.fst).Nodup ∧
      ∀ key ∈ (sent.flatMap Prod.snd).map Prod.fst, ∃ bucket ∈ buckets,
        key = lookupKey w bucket.1 := by
  by_cases empty : buckets = []
  · rw [mset, if_pos empty] at result
    obtain rfl := Option.some_inj.mp result
    exact ⟨List.nodup_nil, nofun⟩
  by_cases every : ∀ pair ∈ spelled w buckets, (nodeOf ra (.string pair.1)).isSome
  · rw [mset_eq_some empty every] at result
    obtain rfl := Option.some_inj.mp result
    rw [List.flatMap_map, map_flatMap]
    constructor
    · apply List.nodup_flatMap.mpr
      refine ⟨fun n _ => (keys_share _ n).1, (List.nodup_range.filter _).imp ?_⟩
      intro n m ne key inN inM
      exact ne (((keys_share _ n).2 key inN).1.symm.trans ((keys_share _ m).2 key inM).1)
    · intro key mem
      obtain ⟨n, -, inN⟩ := List.mem_flatMap.mp mem
      obtain ⟨-, pair, isPair, rfl⟩ := (keys_share _ n).2 key inN
      obtain ⟨bucket, isBucket, rfl⟩ := List.mem_map.mp isPair
      exact ⟨bucket, isBucket, rfl⟩
  · rw [mset_eq_none empty every] at result
    cases result

theorem stored_of_mem (nodup : ((sent.flatMap Prod.snd).map Prod.fst).Nodup) {n : Nat}
    {key : Bytes} {value : V} (mem : (some n, key, value) ∈
      sent.flatMap fun call => call.2.map fun pair => (some call.1, pair)) :
    stored sent n key = some value := by
  obtain ⟨call, isCall, inCall⟩ := List.mem_flatMap.mp mem
  obtain ⟨pair, isPair, same⟩ := List.mem_map.mp inCall
  obtain ⟨node, rfl⟩ := Prod.mk.inj same
  have isNode : call.1 = n := Option.some_inj.mp node
  rw [stored]
  apply lookup_of_mem
  · rw [List.map_reverse]
    apply List.nodup_reverse.mpr
    exact List.Nodup.sublist ((List.filter_sublist.flatMap Prod.snd).map Prod.fst) nodup
  · apply List.mem_reverse.mpr
    apply List.mem_flatMap.mpr
    exact ⟨call, List.mem_filter.mpr ⟨isCall, decide_eq_true isNode⟩, isPair⟩

theorem plain_of_delivers (keys : Keys w buckets) (delivers : Delivers w ra buckets) :
    Plain ra buckets := by
  obtain ⟨sent, result, spread, -⟩ := delivers
  obtain ⟨nodup, sources⟩ := keys_sent result
  have same : ((sent.flatMap Prod.snd).map Prod.fst).Perm
      ((buckets.map Prod.fst).map commandKey) := by
    have projected := spread.map fun entry => entry.2.1
    rw [map_flatMap, map_map] at projected
    rw [map_flatMap, map_map]
    simpa only [map_map, Function.comp_def] using projected
  have apart := same.nodup_iff.mp nodup
  have nonneg : ∀ h, .index h ∈ buckets.map Prod.fst → 0 ≤ h := by
    intro h mem
    by_contra negative
    have isSent := same.mem_iff.mpr (List.mem_map.mpr ⟨_, mem, rfl⟩)
    obtain ⟨bucket, isBucket, equal⟩ := sources _ isSent
    have isKey : bucket.1 ∈ buckets.map Prod.fst := List.mem_map.mpr ⟨_, isBucket, rfl⟩
    cases spelling : bucket.1 with
    | string s =>
      -- a string of that spelling would be sent twice
      rw [spelling] at equal isKey
      cases List.inj_on_of_nodup_map apart mem isKey equal
    | index h' =>
      rw [spelling] at equal
      have positive := w.modulus_pos
      exact printLong_ne (Int.not_le.mp negative)
        (Int.emod_nonneg h' (by omega)) equal.symm
  refine ⟨nonneg, fun key mem => ?_, apart⟩
  obtain ⟨bucket, isBucket, rfl⟩ := List.mem_map.mp mem
  by_contra none
  have some_ : buckets ≠ [] := List.ne_nil_of_mem isBucket
  rw [mset_eq_none some_] at result
  · cases result
  · intro every
    have node := every _ (List.mem_map.mpr ⟨bucket, isBucket, rfl⟩)
    have spelling : lookupKey w bucket.1 = commandKey bucket.1 := by
      apply lookupKey_of_nonneg
      intro h isIndex
      rw [isIndex] at mem
      exact ⟨nonneg h mem, (keys.range h mem).2⟩
    rw [spelling] at node
    exact none node

theorem delivers_of_plain (keys : Keys w buckets) (plain : Plain ra buckets) :
    Delivers w ra buckets := by
  by_cases empty : buckets = []
  · subst empty
    exact ⟨[], by rw [mset, if_pos rfl], .nil, nofun⟩
  have spellings : spelled w buckets =
      buckets.map fun bucket => (commandKey bucket.1, bucket.2) := by
    apply map_congr_left
    intro bucket isBucket
    rw [lookupKey_of_nonneg]
    intro h isIndex
    have mem : .index h ∈ buckets.map Prod.fst := List.mem_map.mpr ⟨_, isBucket, isIndex⟩
    exact ⟨plain.nonneg h mem, (keys.range h mem).2⟩
  have every : ∀ pair ∈ spelled w buckets, (nodeOf ra (.string pair.1)).isSome := by
    intro pair mem
    rw [spellings] at mem
    obtain ⟨bucket, isBucket, rfl⟩ := List.mem_map.mp mem
    exact plain.node _ (List.mem_map.mpr ⟨bucket, isBucket, rfl⟩)
  have distinct : ((spelled w buckets).map Prod.fst).Nodup := by
    have apart := plain.apart
    rw [map_map] at apart
    rw [spellings, map_map]
    exact apart
  have shares : ∀ n, genericMset (share w ra (spelled w buckets) n) =
      (spelled w buckets).filter fun pair => home ra pair = n := by
    intro n
    have apart : ((HashTable.empty : HashTable V).keys ++ ((spelled w buckets).filter fun pair =>
        home ra pair = n).map fun pair => symtableKey w pair.1).Nodup := by
      have part : (((spelled w buckets).filter fun pair => home ra pair = n).map
          Prod.fst).Nodup := List.Nodup.sublist (List.filter_sublist.map Prod.fst) distinct
      have separate := List.Nodup.map_on (f := symtableKey w) (fun a _ b _ same => by
        rw [← commandKey_symtableKey (w := w) a, same, commandKey_symtableKey]) part
      rw [map_map] at separate
      exact separate
    rw [genericMset, share, foldl_of_nodup _ _ apart, HashTable.empty, List.nil_append,
      map_map]
    refine (map_congr_left fun pair _ => ?_).trans (List.map_id _)
    rw [Function.comp_apply, commandKey_symtableKey]
    rfl
  have result := mset_eq_some empty every
  simp only [shares] at result
  have spread := @perm_calls _ (home ra) ra.count (spelled w buckets) fun pair mem =>
    place_lt (every pair mem)
  have expected : ((spelled w buckets).map fun pair => (some (home ra pair), pair)) =
      buckets.map fun bucket => (nodeOfKey ra bucket.1, commandKey bucket.1, bucket.2) := by
    rw [spellings, map_map]
    apply map_congr_left
    intro bucket isBucket
    have node := nodeOf_eq_place (plain.node _ (List.mem_map.mpr ⟨bucket, isBucket, rfl⟩))
    rw [nodeOfKey, node]
    rfl
  rw [expected] at spread
  refine ⟨_, result, spread, fun bucket isBucket n isNode => ?_⟩
  apply stored_of_mem (keys_sent result).1
  apply spread.mem_iff.mpr
  refine List.mem_map.mpr ⟨bucket, isBucket, ?_⟩
  rw [Option.mem_def.mp isNode]

/-- **A multi-set delivers every pair exactly where the keys are plain.** -/
theorem delivers_iff (w : WordSize) (ra : RedisArray) (buckets : List (HashKey × V))
    (keys : Keys w buckets) : Delivers w ra buckets ↔ Plain ra buckets :=
  ⟨plain_of_delivers keys, delivers_of_plain keys⟩

end

theorem delivers_two : Delivers .eight firstOfTwo [(.index 5, true), (.string [97], false)] := by
  have keys : Keys .eight [(HashKey.index 5, true), (.string [97], false)] := by
    refine ⟨by decide, fun h member => ?_⟩
    obtain rfl : h = 5 := by simpa using member
    decide
  apply (delivers_iff _ _ _ keys).mpr
  refine ⟨fun h member => ?_, ?_, by decide⟩
  · obtain rfl : h = 5 := by simpa using member
    decide
  · simp only [List.map_cons, List.map_nil, List.mem_cons, List.not_mem_nil, or_false]
    rintro key (rfl | rfl) <;> rfl

/-- A pair with a negative key is sent under another one. -/
theorem not_delivers : ¬ ∀ (w : WordSize) (ra : RedisArray) (buckets : List (HashKey × Bool)),
    Keys w buckets → Delivers w ra buckets := by
  intro all
  have keys : Keys .eight [(HashKey.index (-5), true)] := by
    refine ⟨by decide, fun h member => ?_⟩
    obtain rfl : h = -5 := by simpa using member
    decide
  have plain := plain_of_delivers keys (all .eight firstOfTwo _ keys)
  exact absurd (plain.nonneg (-5) (by simp)) (by decide)

end PhpExts.Redis.ArrayMset
