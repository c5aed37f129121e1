import Mathlib

/-!
# The variable cache

Variables are entries in chains; the hash of a name says in which cache and in which chain
its entry is. An entry is dropped when it is found after its time, or by the collection at
the end of a request.

Read as a whole the chains are a map from names to values with a time (`TimedMap`), on
which the calls act as they should (`agrees_of_fits`) as long as a new entry finds memory,
or no old one had to go for it.
-/

namespace PhpExts.XCache.VarCache

open Function (update update_of_ne)
open Option (filter_some map_some)

abbrev Name := List UInt8

/-- A `long`, which wraps. -/
def asLong (n : Int) : Int := (n + 2 ^ 63) % 2 ^ 64 - 2 ^ 63

/-- A value: a number, or one that `convert_to_long` makes a number of. -/
inductive Zval (ν : Type) where
  | long (lval : Int)
  | other (data : ν)
  deriving DecidableEq

/-- The caches: how names are hashed, the bits of `xc_var_hcache` and `xc_var_hentry`,
`xc_var_maxttl` and `convert_to_long`. -/
structure Config (ν : Type) where
  hash : Name → Nat
  cacheBits : Nat
  entryBits : Nat
  maxttl : Nat
  convert : ν → Int

variable {ν : Type} (config : Config ν)

/-- `xc_entry_var_init_key`: the cache of a name. -/
def Config.cacheid (name : Name) : Nat := config.hash name % 2 ^ config.cacheBits

/-- `xc_entry_var_init_key`: the chain of a name in its cache. -/
def Config.entryslotid (name : Name) : Nat :=
  config.hash name / 2 ^ config.cacheBits % 2 ^ config.entryBits

/-- `xc_entry_var_t`. -/
structure Entry (ν : Type) where
  name : Name
  value : Zval ν
  ctime : Int
  ttl : Nat

def Entry.expired (entry : Entry ν) (requestTime : Int) : Bool :=
  entry.ttl ≠ 0 ∧ asLong (entry.ctime + asLong entry.ttl) < requestTime

/-- `xc_entry_remove_unlocked`: the first entry of the name is unlinked and freed. -/
def removeUnlocked (entry : Entry ν) (chain : List (Entry ν)) : List (Entry ν) :=
  chain.eraseP (·.name = entry.name)

def findUnlocked (requestTime : Int) (name : Name) (chain : List (Entry ν)) :
    Option (Entry ν) × List (Entry ν) :=
  match chain.find? (·.name = name) with
  | none => (none, chain)
  | some p => if p.expired requestTime then (none, removeUnlocked p chain) else (some p, chain)

/-- `xc_entry_var_store_unlocked`; `fits` says whether there is memory for the entry. -/
def storeUnlocked (fits : Bool) (entry : Entry ν) (chain : List (Entry ν)) :
    Bool × List (Entry ν) :=
  if fits then (true, entry :: chain) else (false, chain)

inductive Answer (ν : Type) where
  | null
  | bool (value : Bool)
  | value (value : Zval ν)
  deriving DecidableEq

/-- The time to live, bounded by `xc_var_maxttl`. -/
def Config.capTtl (ttl : Nat) : Nat :=
  if config.maxttl ≠ 0 ∧ (ttl = 0 ∨ config.maxttl < ttl) then config.maxttl else ttl

/-- `xcache_get`. -/
def get (requestTime : Int) (name : Name) (chain : List (Entry ν)) : Answer ν × List (Entry ν) :=
  match findUnlocked requestTime name chain with
  | (some stored, chain) => (.value stored.value, chain)
  | (none, chain) => (.null, chain)

/-- `xcache_isset`. -/
def isset (requestTime : Int) (name : Name) (chain : List (Entry ν)) : Answer ν × List (Entry ν) :=
  match findUnlocked requestTime name chain with
  | (some _, chain) => (.bool true, chain)
  | (none, chain) => (.bool false, chain)

/-- `xcache_set`. -/
def set (requestTime : Int) (fits : Bool) (name : Name) (value : Zval ν) (ttl : Nat)
    (chain : List (Entry ν)) : Answer ν × List (Entry ν) :=
  let removed :=
    match findUnlocked requestTime name chain with
    | (some stored, chain) => removeUnlocked stored chain
    | (none, chain) => chain
  let (stored, chain) := storeUnlocked fits ⟨name, value, requestTime, config.capTtl ttl⟩ removed
  (.bool stored, chain)

/-- `xcache_unset`. -/
def unset (requestTime : Int) (name : Name) (chain : List (Entry ν)) : Answer ν × List (Entry ν) :=
  match findUnlocked requestTime name chain with
  | (some stored, chain) => (.bool true, removeUnlocked stored chain)
  | (none, chain) => (.bool false, chain)

def inPlace (name : Name) (change : Entry ν → Entry ν) : List (Entry ν) → List (Entry ν)
  | [] => []
  | entry :: chain =>
    if entry.name = name then change entry :: chain else entry :: inPlace name change chain

/-- `xc_var_inc_dec`; `count` is negative for `xcache_dec`. -/
def incDec (requestTime : Int) (fits : Bool) (name : Name) (count : Int) (ttl : Nat)
    (chain : List (Entry ν)) : Answer ν × List (Entry ν) :=
  match findUnlocked requestTime name chain with
  | (some stored, chain) =>
    match stored.value with
    | .long lval =>
      let value := .long (asLong (lval + count))
      (.value value, inPlace name
        (fun entry => { entry with value, ctime := requestTime, ttl := config.capTtl ttl }) chain)
    | .other data =>
      let value := .long (asLong (config.convert data + count))
      (.value value, (storeUnlocked fits ⟨name, value, requestTime, config.capTtl ttl⟩
        (removeUnlocked stored chain)).2)
  | (none, chain) =>
    let value := .long (asLong count)
    (.value value, (storeUnlocked fits ⟨name, value, requestTime, config.capTtl ttl⟩ chain).2)

/-- The loop of `xcache_unset_by_prefix` through a chain, with `xc_var_has_prefix`. -/
def unsetByPrefix (start : Name) (chain : List (Entry ν)) : List (Entry ν) :=
  chain.foldl (fun left entry =>
    if start.isPrefixOf entry.name then removeUnlocked entry left else left) chain

abbrev Caches (ν : Type) := Nat → Nat → List (Entry ν)

def onChain (name : Name) (call : List (Entry ν) → Answer ν × List (Entry ν))
    (caches : Caches ν) : Answer ν × Caches ν :=
  let result := call (caches (config.cacheid name) (config.entryslotid name))
  (result.1, fun cacheid entryslotid =>
    if cacheid = config.cacheid name ∧ entryslotid = config.entryslotid name then result.2
    else caches cacheid entryslotid)

/-- The calls, and the collection of `xc_gc_expires_var`. -/
inductive Op (ν : Type) where
  | set (name : Name) (value : Zval ν) (ttl : Nat) (fits : Bool)
  | get (name : Name)
  | isset (name : Name)
  | unset (name : Name)
  | unsetByPrefix (start : Name)
  | incDec (name : Name) (count : Int) (ttl : Nat) (fits : Bool)
  | clear (id : Option Nat)
  | gcExpires

def step (requestTime : Int) (caches : Caches ν) : Op ν → Answer ν × Caches ν
  | .set name value ttl fits =>
    onChain config name (set config requestTime fits name value ttl) caches
  | .get name => onChain config name (get requestTime name) caches
  | .isset name => onChain config name (isset requestTime name) caches
  | .unset name => onChain config name (unset requestTime name) caches
  | .unsetByPrefix start =>
    (.null, fun cacheid entryslotid => unsetByPrefix start (caches cacheid entryslotid))
  | .incDec name count ttl fits =>
    onChain config name (incDec config requestTime fits name count ttl) caches
  | .clear none => (.null, fun _ _ => [])
  | .clear (some id) =>
    if id < 2 ^ config.cacheBits then
      (.null, fun cacheid entryslotid => if cacheid = id then [] else caches cacheid entryslotid)
    else (.bool false, caches)
  | .gcExpires =>
    (.null, fun cacheid entryslotid =>
      (caches cacheid entryslotid).filter fun entry => !entry.expired requestTime)

def answers : List (Int × Op ν) → Caches ν → List (Answer ν)
  | [], _ => []
  | (requestTime, op) :: ops, caches =>
    (step config requestTime caches op).1 :: answers ops (step config requestTime caches op).2

def after : List (Int × Op ν) → Caches ν → Caches ν
  | [], caches => caches
  | (requestTime, op) :: ops, caches => after ops (step config requestTime caches op).2

/-! ## A map with times -/

/-- The end of a time to live, unless there is none. -/
def expiry (requestTime : Int) (ttl : Nat) : Option Int :=
  if ttl = 0 then none else some (asLong (requestTime + asLong ttl))

structure Cell (ν : Type) where
  value : Zval ν
  expiry : Option Int

def Cell.alive (time : Int) (cell : Cell ν) : Bool :=
  match cell.expiry with
  | none => true
  | some last => time ≤ last

abbrev TimedMap (ν : Type) := Name → Option (Cell ν)

def seen (time : Int) (map : TimedMap ν) (name : Name) : Option (Cell ν) :=
  (map name).filter (Cell.alive time)

def specStep (time : Int) (map : TimedMap ν) : Op ν → Answer ν × TimedMap ν
  | .set name value ttl fits =>
    if fits then
      (.bool true, update map name (some ⟨value, expiry time (config.capTtl ttl)⟩))
    else (.bool false, map)
  | .get name =>
    match seen time map name with
    | some cell => (.value cell.value, map)
    | none => (.null, map)
  | .isset name => (.bool (seen time map name).isSome, map)
  | .unset name => (.bool (seen time map name).isSome, update map name none)
  | .unsetByPrefix start => (.null, fun name => if start.isPrefixOf name then none else map name)
  | .incDec name count ttl _ =>
    let old :=
      match (seen time map name).map Cell.value with
      | some (.long lval) => lval
      | some (.other data) => config.convert data
      | none => 0
    let value := .long (asLong (old + count))
    (.value value, update map name (some ⟨value, expiry time (config.capTtl ttl)⟩))
  | .clear none => (.null, fun _ => none)
  | .clear (some id) =>
    if id < 2 ^ config.cacheBits then
      (.null, fun name => if config.cacheid name = id then none else map name)
    else (.bool false, map)
  | .gcExpires => (.null, map)

def specAnswers : List (Int × Op ν) → TimedMap ν → List (Answer ν)
  | [], _ => []
  | (time, op) :: ops, map =>
    (specStep config time map op).1 :: specAnswers ops (specStep config time map op).2

def current (requestTime : Int) (caches : Caches ν) (name : Name) : Option (Entry ν) :=
  ((caches (config.cacheid name) (config.entryslotid name)).find? (·.name = name)).filter
    fun entry => !entry.expired requestTime

/-- A new entry finds memory, or no current entry makes way for it; a number counts in its
place. -/
def Fits (requestTime : Int) (caches : Caches ν) : Op ν → Prop
  | .set name _ _ fits => fits = true ∨ current config requestTime caches name = none
  | .incDec name _ _ fits =>
    fits = true ∨ ∃ entry lval,
      current config requestTime caches name = some entry ∧ entry.value = .long lval
  | _ => True

def RunFits : List (Int × Op ν) → Caches ν → Prop
  | [], _ => True
  | (requestTime, op) :: ops, caches =>
    Fits config requestTime caches op ∧ RunFits ops (step config requestTime caches op).2

/-! ## Chains without two entries of a name -/

def Entry.cell (entry : Entry ν) : Cell ν := ⟨entry.value, expiry entry.ctime entry.ttl⟩

def Distinct (chain : List (Entry ν)) : Prop := (chain.map Entry.name).Nodup

section

variable {now : Int} {name : Name} {chain chain' chain'' : List (Entry ν)} {entry : Entry ν}
  {cell cell' : Option (Cell ν)}

theorem expired_eq (time : Int) : entry.expired time = !entry.cell.alive time := by
  unfold Entry.expired Cell.alive Entry.cell expiry
  by_cases none : entry.ttl = 0
  · simp only [none, ne_eq, not_true_eq_false, false_and, decide_false, if_true, Bool.not_true]
  · simp only [none, ne_eq, not_false_eq_true, true_and, if_false]
    rw [← decide_not]
    exact decide_eq_decide.mpr (by omega)

def view (time : Int) (chain : List (Entry ν)) (name : Name) : Option (Cell ν) :=
  ((chain.find? (·.name = name)).map Entry.cell).filter (Cell.alive time)

theorem name_of_find? (found : chain.find? (·.name = name) = some entry) : entry.name = name := by
  simpa using List.find?_some found

theorem find?_eq_none_of_notMem (fresh : name ∉ chain.map Entry.name) :
    chain.find? (·.name = name) = none :=
  List.find?_eq_none.mpr fun entry mem same =>
    fresh (List.mem_map.mpr ⟨entry, mem, of_decide_eq_true same⟩)

theorem notMem_of_find?_eq_none (none : chain.find? (·.name = name) = none) :
    name ∉ chain.map Entry.name := by
  intro mem
  obtain ⟨entry, mem, same⟩ := List.mem_map.mp mem
  exact List.find?_eq_none.mp none entry mem (decide_eq_true same)

theorem Distinct.filter (distinct : Distinct chain) (keep : Entry ν → Bool) :
    Distinct (chain.filter keep) :=
  distinct.sublist (List.filter_sublist.map _)

theorem find?_filter (distinct : Distinct chain) (keep : Entry ν → Bool) (name : Name) :
    (chain.filter keep).find? (·.name = name) = (chain.find? (·.name = name)).filter keep := by
  induction chain with
  | nil => rfl
  | cons entry chain ih =>
    obtain ⟨fresh, distinct⟩ := List.nodup_cons.mp distinct
    by_cases kept : keep entry
    · rw [List.filter_cons_of_pos kept, List.find?_cons, List.find?_cons]
      by_cases own : entry.name = name
      · simp only [own, decide_true, filter_some, kept, if_true]
      · simp only [own, decide_false, ih distinct]
    · rw [List.filter_cons_of_neg kept, ih distinct, List.find?_cons]
      by_cases own : entry.name = name
      · rw [find?_eq_none_of_notMem (own ▸ fresh)]
        simp only [own, decide_true, Option.filter_none, filter_some, kept,
          Bool.false_eq_true, if_false]
      · simp only [own, decide_false]

theorem removeUnlocked_eq (distinct : Distinct chain) (entry : Entry ν) :
    removeUnlocked entry chain = chain.filter fun any => any.name ≠ entry.name := by
  induction chain with
  | nil => rfl
  | cons first chain ih =>
    obtain ⟨fresh, distinct⟩ := List.nodup_cons.mp distinct
    unfold removeUnlocked at ih ⊢
    by_cases own : first.name = entry.name
    · rw [List.eraseP_cons_of_pos (by simpa using own),
        List.filter_cons_of_neg (by simpa using own)]
      refine (List.filter_eq_self.mpr fun any mem => ?_).symm
      have differ : any.name ≠ entry.name := fun same =>
        fresh (List.mem_map.mpr ⟨any, mem, same.trans own.symm⟩)
      simpa using differ
    · rw [List.eraseP_cons_of_neg (by simpa using own),
        List.filter_cons_of_pos (by simpa using own), ih distinct]

theorem unsetByPrefix_eq (distinct : Distinct chain) (start : Name) :
    unsetByPrefix start chain = chain.filter fun entry => !start.isPrefixOf entry.name := by
  have partway : ∀ rest left : List (Entry ν), Distinct left →
      rest.foldl (fun left entry =>
        if start.isPrefixOf entry.name then removeUnlocked entry left else left) left =
      left.filter fun entry =>
        !(start.isPrefixOf entry.name && rest.any fun any => any.name = entry.name) := by
    intro rest
    induction rest with
    | nil => simp
    | cons first rest ih =>
      intro left distinct
      rw [List.foldl_cons]
      by_cases own : start.isPrefixOf first.name
      · rw [if_pos own, removeUnlocked_eq distinct, ih _ (distinct.filter _), List.filter_filter]
        refine List.filter_congr fun entry _ => ?_
        by_cases same : entry.name = first.name
        · simp [same, own]
        · simp [same, Ne.symm same]
      · rw [if_neg own, ih _ distinct]
        refine List.filter_congr fun entry _ => ?_
        by_cases same : first.name = entry.name
        · simp [← same, own]
        · simp [same]
  rw [unsetByPrefix, partway chain chain distinct]
  refine List.filter_congr fun entry mem => ?_
  have found : (chain.any fun any => any.name = entry.name) = true :=
    List.any_eq_true.mpr ⟨entry, mem, decide_eq_true rfl⟩
  rw [found, Bool.and_true]

structure Changes (now : Int) (name : Name) (chain chain' : List (Entry ν))
    (cell : Option (Cell ν)) : Prop where
  distinct : Distinct chain'
  names : ∀ entry ∈ chain', entry.name = name ∨ ∃ old ∈ chain, old.name = entry.name
  own : ∀ time, now ≤ time → view time chain' name = cell.filter (Cell.alive time)
  other : ∀ any, any ≠ name → chain'.find? (·.name = any) = chain.find? (·.name = any)

theorem Changes.trans (first : Changes now name chain chain' cell)
    (second : Changes now name chain' chain'' cell') : Changes now name chain chain'' cell' where
  distinct := second.distinct
  names := fun entry mem => by
    rcases second.names entry mem with own | ⟨old, mem, same⟩
    · exact .inl own
    · rcases first.names old mem with own | ⟨older, mem, same'⟩
      · exact .inl (same ▸ own)
      · exact .inr ⟨older, mem, same'.trans same⟩
  own := second.own
  other := fun any other => (second.other any other).trans (first.other any other)

theorem changes_self (distinct : Distinct chain) :
    Changes now name chain chain ((chain.find? (·.name = name)).map Entry.cell) where
  distinct := distinct
  names := fun entry mem => .inr ⟨entry, mem, rfl⟩
  own := fun _ _ => rfl
  other := fun _ _ => rfl

theorem find?_removeUnlocked {stored : Entry ν} (distinct : Distinct chain)
    (found : chain.find? (·.name = name) = some stored) :
    (removeUnlocked stored chain).find? (·.name = name) = none := by
  have own := name_of_find? found
  rw [removeUnlocked_eq distinct, find?_filter distinct, found]
  simp [own]

theorem changes_remove (distinct : Distinct chain) (own : entry.name = name) :
    Changes now name chain (removeUnlocked entry chain) none where
  distinct := removeUnlocked_eq distinct entry ▸ distinct.filter _
  names := fun any mem => .inr ⟨any, List.mem_of_mem_eraseP mem, rfl⟩
  own := fun time _ => by
    rw [view, removeUnlocked_eq distinct, find?_filter distinct]
    cases found : chain.find? (·.name = name) with
    | none => rfl
    | some any =>
      have same := name_of_find? found
      simp [same, own]
  other := fun any other => by
    rw [removeUnlocked_eq distinct, find?_filter distinct]
    cases found : chain.find? (·.name = any) with
    | none => rfl
    | some entry' =>
      have same : entry'.name = any := name_of_find? found
      simp [same, own, other]

theorem changes_store (distinct : Distinct chain) (fresh : chain.find? (·.name = name) = none)
    (own : entry.name = name) : Changes now name chain (entry :: chain) (some entry.cell) where
  distinct := List.nodup_cons.mpr ⟨own ▸ notMem_of_find?_eq_none fresh, distinct⟩
  names := fun any mem => by
    rcases List.mem_cons.mp mem with rfl | mem
    · exact .inl own
    · exact .inr ⟨any, mem, rfl⟩
  own := fun time _ => by
    rw [view, List.find?_cons_of_pos (by simpa using own), map_some]
  other := fun any other =>
    List.find?_cons_of_neg (by simpa using fun same => other (same.symm.trans own))

theorem find?_inPlace {change : Entry ν → Entry ν}
    (kept : ∀ entry, (change entry).name = entry.name) (any : Name) :
    (inPlace name change chain).find? (·.name = any) =
      if any = name then (chain.find? (·.name = any)).map change
      else chain.find? (·.name = any) := by
  induction chain with
  | nil => simp [inPlace]
  | cons entry chain ih =>
    rw [inPlace]
    by_cases own : entry.name = name
    · rw [if_pos own, List.find?_cons, List.find?_cons, kept]
      by_cases same : any = name
      · simp only [own, same, decide_true, if_true, map_some]
      · have differ : ¬ name = any := fun equal => same equal.symm
        simp only [own, same, differ, decide_false, if_false]
    · rw [if_neg own, List.find?_cons, List.find?_cons, ih]
      by_cases same : entry.name = any
      · have differ : ¬ any = name := fun equal => own (same.trans equal)
        simp only [same, differ, decide_true, if_false]
      · simp only [same, decide_false]

theorem map_name_inPlace {change : Entry ν → Entry ν}
    (kept : ∀ entry, (change entry).name = entry.name) :
    (inPlace name change chain).map Entry.name = chain.map Entry.name := by
  induction chain with
  | nil => rfl
  | cons entry chain ih =>
    rw [inPlace]
    split_ifs
    · rw [List.map_cons, List.map_cons, kept]
    · rw [List.map_cons, List.map_cons, ih]

theorem changes_inPlace {change : Entry ν → Entry ν} (distinct : Distinct chain)
    (kept : ∀ entry, (change entry).name = entry.name)
    (found : chain.find? (·.name = name) = some entry) :
    Changes now name chain (inPlace name change chain) (some (change entry).cell) where
  distinct := by rw [Distinct, map_name_inPlace kept]; exact distinct
  names := fun any mem => by
    have named := List.mem_map_of_mem (f := Entry.name) mem
    rw [map_name_inPlace kept] at named
    exact .inr (List.mem_map.mp named)
  own := fun time _ => by rw [view, find?_inPlace kept, if_pos rfl, found]; rfl
  other := fun any other => by rw [find?_inPlace kept, if_neg other]

theorem findUnlocked_cases (now : Int) (name : Name) (distinct : Distinct chain) :
    (∃ stored, findUnlocked now name chain = (some stored, chain) ∧
      chain.find? (·.name = name) = some stored ∧ stored.name = name ∧
      view now chain name = some stored.cell) ∨
    ∃ chain', findUnlocked now name chain = (none, chain') ∧
      chain'.find? (·.name = name) = none ∧ Changes now name chain chain' none ∧
      view now chain name = none := by
  unfold findUnlocked view
  cases found : chain.find? (·.name = name) with
  | none =>
    refine .inr ⟨chain, rfl, found, ?_, rfl⟩
    have := @changes_self _ now name _ distinct
    rwa [found] at this
  | some stored =>
    have own : stored.name = name := name_of_find? found
    simp only [map_some, filter_some]
    by_cases expired : stored.expired now
    · have dead : stored.cell.alive now = false := by
        rw [expired_eq] at expired
        simpa using expired
      simp only [expired, if_true, dead, Bool.false_eq_true, if_false]
      have removed := @changes_remove _ now _ _ _ distinct own
      refine .inr ⟨_, rfl, ?_, removed, trivial⟩
      exact find?_removeUnlocked distinct found
    · have alive : stored.cell.alive now = true := by
        rw [expired_eq] at expired
        simpa using expired
      simp only [expired, Bool.false_eq_true, if_false, alive, if_true]
      exact .inl ⟨stored, rfl, rfl, own, rfl⟩

/-! ## The calls on a chain -/

theorem changes_get (distinct : Distinct chain) :
    Changes now name chain (get now name chain).2 (view now chain name) ∧ (get now name chain).1 =
        match view now chain name with
        | some cell => .value cell.value
        | none => .null := by
  unfold get
  rcases findUnlocked_cases now name distinct with
    ⟨stored, result, found, own, seen⟩ | ⟨chain', result, -, changes, seen⟩
  · have same := @changes_self _ now name _ distinct
    rw [found, map_some] at same
    simp only [result, seen]
    exact ⟨same, rfl⟩
  · simp only [result, seen, and_true]
    exact changes

theorem isset_eq : isset now name chain = (match (get now name chain).1 with
        | .value _ => .bool true
        | _ => .bool false, (get now name chain).2) := by
  unfold isset get
  rcases findUnlocked now name chain with ⟨_ | stored, chain'⟩ <;> rfl

theorem changes_unset (distinct : Distinct chain) :
    Changes now name chain (unset now name chain).2 none ∧
      (unset now name chain).1 = .bool (view now chain name).isSome := by
  unfold unset
  rcases findUnlocked_cases now name distinct with
    ⟨stored, result, found, own, seen⟩ | ⟨chain', result, -, changes, seen⟩
  · simp only [result, seen, Option.isSome_some, and_true]
    exact changes_remove distinct own
  · simp only [result, seen, Option.isSome_none, and_true]
    exact changes

theorem changes_set {fits : Bool} {value : Zval ν} {ttl : Nat} (distinct : Distinct chain)
    (room : fits = true ∨ view now chain name = none) :
    Changes now name chain (set config now fits name value ttl chain).2
        (if fits then some ⟨value, expiry now (config.capTtl ttl)⟩ else none) ∧
      (set config now fits name value ttl chain).1 = .bool fits := by
  unfold set storeUnlocked
  rcases findUnlocked_cases now name distinct with
    ⟨stored, result, found, own, seen⟩ | ⟨chain', result, gone, changes, seen⟩
  · have fits := room.resolve_right (by rw [seen]; simp)
    subst fits
    have removed := @changes_remove _ now _ _ _ distinct own
    have gone := find?_removeUnlocked distinct found
    simp only [result, if_true, and_true]
    exact removed.trans (changes_store removed.distinct gone rfl)
  · cases fits with
    | true =>
      simp only [result, if_true, and_true]
      exact changes.trans (changes_store changes.distinct gone rfl)
    | false =>
      simp only [result, Bool.false_eq_true, if_false, and_true]
      exact changes

def counted (cell : Option (Cell ν)) : Int :=
  match cell.map Cell.value with
  | some (.long lval) => lval
  | some (.other data) => config.convert data
  | none => 0

theorem changes_incDec {fits : Bool} {count : Int} {ttl : Nat} (distinct : Distinct chain)
    (room : fits = true ∨ ∃ cell lval, view now chain name = some cell ∧ cell.value = .long lval) :
    Changes now name chain (incDec config now fits name count ttl chain).2
        (some ⟨.long (asLong (counted config (view now chain name) + count)),
          expiry now (config.capTtl ttl)⟩) ∧ (incDec config now fits name count ttl chain).1 =
        .value (.long (asLong (counted config (view now chain name) + count))) := by
  unfold incDec storeUnlocked counted
  rcases findUnlocked_cases now name distinct with
    ⟨stored, result, found, own, seen⟩ | ⟨chain', result, gone, changes, seen⟩
  · rw [seen] at room ⊢
    rw [result]
    simp only [map_some, Entry.cell] at room ⊢
    cases number : stored.value with
    | long lval =>
      refine ⟨?_, rfl⟩
      exact changes_inPlace distinct (fun _ => rfl) found
    | other data =>
      have fits : fits = true := by
        refine room.resolve_right ?_
        rintro ⟨cell, lval, same, value⟩
        rw [← Option.some.inj same, number] at value
        cases value
      subst fits
      have removed := @changes_remove _ now _ _ _ distinct own
      have gone := find?_removeUnlocked distinct found
      refine ⟨?_, rfl⟩
      exact removed.trans (changes_store removed.distinct gone rfl)
  · have fits : fits = true := by
      refine room.resolve_right ?_
      rintro ⟨cell, lval, same, -⟩
      rw [seen] at same
      cases same
    subst fits
    rw [seen, result]
    simp only [Option.map_none, Int.zero_add, and_true]
    exact changes.trans (changes_store changes.distinct gone rfl)

end

/-! ## The chains as a map -/

section

variable {config} {now : Int} {name : Name} {caches : Caches ν} {map map' : TimedMap ν}

def chainOf (config : Config ν) (caches : Caches ν) (name : Name) : List (Entry ν) :=
  caches (config.cacheid name) (config.entryslotid name)

structure Refines (config : Config ν) (now : Int) (caches : Caches ν) (map : TimedMap ν) :
    Prop where
  distinct : ∀ cacheid entryslotid, Distinct (caches cacheid entryslotid)
  placed : ∀ cacheid entryslotid, ∀ entry ∈ caches cacheid entryslotid,
    config.cacheid entry.name = cacheid ∧ config.entryslotid entry.name = entryslotid
  same : ∀ time, now ≤ time → ∀ name,
    view time (chainOf config caches name) name = seen time map name

theorem Refines.later (refines : Refines config now caches map) {time : Int} (later : now ≤ time) :
    Refines config time caches map :=
  ⟨refines.distinct, refines.placed, fun _ after =>
    refines.same _ (Int.le_trans later after)⟩

theorem Refines.current_eq (refines : Refines config now caches map) (name : Name) :
    (current config now caches name).map Entry.cell = seen now map name := by
  rw [← refines.same now (Int.le_refl now), current, view, chainOf]
  cases (caches (config.cacheid name) (config.entryslotid name)).find? (·.name = name) with
  | none => rfl
  | some entry =>
    rw [map_some, filter_some, filter_some, expired_eq, Bool.not_not]
    cases entry.cell.alive now <;> rfl

theorem Refines.onChain (refines : Refines config now caches map)
    {call : List (Entry ν) → Answer ν × List (Entry ν)} {cell : Option (Cell ν)}
    (changes : Changes now name (chainOf config caches name)
      (call (chainOf config caches name)).2 cell)
    (own : ∀ time, now ≤ time → seen time map' name = cell.filter (Cell.alive time))
    (other : ∀ any, any ≠ name → map' any = map any) :
    Refines config now (onChain config name call caches).2 map' := by
  refine ⟨fun cacheid slot => ?_, fun cacheid slot entry mem => ?_, fun time later any => ?_⟩
  · simp only [VarCache.onChain]
    split_ifs
    · exact changes.distinct
    · exact refines.distinct cacheid slot
  · simp only [VarCache.onChain] at mem
    split_ifs at mem with here
    · rw [here.1, here.2]
      rcases changes.names entry mem with own | ⟨old, mem, same⟩
      · exact own ▸ ⟨rfl, rfl⟩
      · exact same ▸ refines.placed _ _ old mem
    · exact refines.placed cacheid slot entry mem
  · simp only [VarCache.onChain, chainOf]
    by_cases same : any = name
    · subst same
      rw [if_pos ⟨rfl, rfl⟩, own time later]
      exact changes.own time later
    · have before := refines.same time later any
      rw [seen, other any same, ← seen, ← before]
      split_ifs with here
      · have kept := changes.other any same
        unfold chainOf at kept
        rw [view, kept, view, chainOf, here.1, here.2]
      · rfl

theorem Refines.filter (refines : Refines config now caches map) (keep : Entry ν → Bool)
    (same : ∀ time, now ≤ time → ∀ name, seen time map' name =
      (((chainOf config caches name).find? (·.name = name)).filter keep |>.map Entry.cell).filter
        (Cell.alive time)) :
    Refines config now (fun cacheid slot => (caches cacheid slot).filter keep) map' := by
  refine ⟨fun cacheid slot => (refines.distinct cacheid slot).filter keep,
    fun cacheid slot entry mem =>
      refines.placed cacheid slot entry (List.mem_of_mem_filter mem),
    fun time later name => ?_⟩
  rw [same time later name, view, chainOf, chainOf, find?_filter (refines.distinct _ _)]

theorem Refines.filterNames (refines : Refines config now caches map) (keep : Name → Bool)
    (dropped : ∀ name, map' name = if keep name then map name else none) : Refines config now
      (fun cacheid slot => (caches cacheid slot).filter fun entry => keep entry.name) map' := by
  refine refines.filter (fun entry => keep entry.name) fun time later name => ?_
  have same := refines.same time later name
  unfold view at same
  rw [seen, dropped]
  cases found : (chainOf config caches name).find? (·.name = name) with
  | none =>
    rw [found] at same
    cases keep name with
    | true => exact same.symm
    | false => rfl
  | some entry =>
    rw [found] at same
    rw [filter_some, name_of_find? found]
    cases keep name with
    | true => exact same.symm
    | false => rfl

theorem Cell.alive_of_later {cell : Cell ν} {time : Int} (later : now ≤ time)
    (alive : cell.alive time = true) : cell.alive now = true := by
  unfold Cell.alive at alive ⊢
  cases last : cell.expiry with
  | none => rfl
  | some last =>
    simp only [last, decide_eq_true_eq] at alive ⊢
    omega

theorem seen_filter {time : Int} (later : now ≤ time) :
    (seen now map name).filter (Cell.alive time) = seen time map name := by
  unfold seen
  cases map name with
  | none => rfl
  | some cell =>
    rw [filter_some, filter_some]
    cases alive : cell.alive now with
    | true => rw [if_pos rfl, filter_some]
    | false =>
      rw [if_neg Bool.false_ne_true, if_neg fun late => ?_, Option.filter_none]
      rw [Cell.alive_of_later later late] at alive
      cases alive

theorem seen_update_self (time : Int) (cell : Option (Cell ν)) :
    seen time (update map name cell) name = cell.filter (Cell.alive time) := by
  rw [seen, Function.update_self]

/-- **A call that fits answers as the map does, and the chains stay what the map is.** -/
theorem Refines.step (refines : Refines config now caches map) {op : Op ν}
    (fits : Fits config now caches op) :
    (VarCache.step config now caches op).1 = (specStep config now map op).1 ∧
      Refines config now (VarCache.step config now caches op).2 (specStep config now map op).2 := by
  have view_eq := refines.same now (Int.le_refl now)
  have distinct : ∀ name, Distinct (chainOf config caches name) := fun _ => refines.distinct _ _
  have reads : ∀ name time, now ≤ time → seen time map name =
      (view now (chainOf config caches name) name).filter (Cell.alive time) :=
    fun name time later => by rw [view_eq, seen_filter later]
  have gets : ∀ name,
      Refines config now (VarCache.onChain config name (get now name) caches).2 map :=
    fun name => refines.onChain (changes_get (distinct name)).1 (reads name) fun _ _ => rfl
  cases op with
  | get name =>
    have answer := (@changes_get _ now name _ (distinct name)).2
    rw [view_eq] at answer
    simp only [VarCache.step, specStep]
    cases found : seen now map name with
    | none => exact ⟨by rw [found] at answer; exact answer, gets name⟩
    | some cell => exact ⟨by rw [found] at answer; exact answer, gets name⟩
  | isset name =>
    have answer := (@changes_get _ now name _ (distinct name)).2
    rw [view_eq] at answer
    have same : VarCache.onChain config name (isset now name) caches =
        (.bool (seen now map name).isSome,
          (VarCache.onChain config name (get now name) caches).2) := by
      simp only [VarCache.onChain, isset_eq]
      unfold chainOf at answer
      rw [answer]
      cases seen now map name <;> rfl
    simp only [VarCache.step, specStep, same]
    exact ⟨trivial, gets name⟩
  | unset name =>
    obtain ⟨changes, answer⟩ := @changes_unset _ now name _ (distinct name)
    rw [view_eq] at answer
    exact ⟨answer, refines.onChain changes (fun time _ => seen_update_self time none)
      fun _ other => update_of_ne other _ _⟩
  | set name value ttl room =>
    have current := refines.current_eq name
    have noEntry : room = true ∨ view now (chainOf config caches name) name = none := by
      rw [view_eq, ← current, Option.map_eq_none_iff]
      exact fits
    obtain ⟨changes, answer⟩ := @changes_set _ config now name _ room value ttl (distinct name)
      noEntry
    simp only [VarCache.step, specStep]
    cases room with
    | true =>
      exact ⟨answer, refines.onChain changes (fun time _ => seen_update_self time _)
        fun _ other => update_of_ne other _ _⟩
    | false =>
      have none := noEntry.resolve_left Bool.false_ne_true
      refine ⟨answer, refines.onChain changes (fun time later => ?_) fun _ _ => rfl⟩
      simp only [Bool.false_eq_true, if_false]
      rw [reads name time later, none]
  | incDec name count ttl room =>
    have current := refines.current_eq name
    have number : room = true ∨ ∃ cell lval,
        view now (chainOf config caches name) name = some cell ∧ cell.value = .long lval := by
      refine fits.imp_right ?_
      rintro ⟨entry, lval, found, value⟩
      rw [found, map_some] at current
      exact ⟨entry.cell, lval, by rw [view_eq, ← current], value⟩
    obtain ⟨changes, answer⟩ :=
      @changes_incDec _ config now name _ room count ttl (distinct name) number
    rw [view_eq] at changes answer
    exact ⟨answer, refines.onChain changes (fun time _ => seen_update_self time _)
      fun _ other => update_of_ne other _ _⟩
  | unsetByPrefix start =>
    refine ⟨rfl, ?_⟩
    have every : (fun cacheid slot => unsetByPrefix start (caches cacheid slot)) =
        fun cacheid slot => (caches cacheid slot).filter
          fun entry => !start.isPrefixOf entry.name := by
      funext cacheid slot
      exact unsetByPrefix_eq (refines.distinct cacheid slot) start
    simp only [VarCache.step, specStep, every]
    exact refines.filterNames (fun name => !start.isPrefixOf name) fun name => by
      cases start.isPrefixOf name <;> rfl
  | clear id =>
    cases id with
    | none =>
      exact ⟨rfl, fun _ _ => List.nodup_nil, fun _ _ _ none => (nomatch none), fun _ _ _ => rfl⟩
    | some id =>
      simp only [VarCache.step, specStep]
      by_cases inside : id < 2 ^ config.cacheBits
      · simp only [inside, if_true, true_and]
        have every : (fun cacheid slot => if cacheid = id then [] else caches cacheid slot) =
            fun cacheid slot => (caches cacheid slot).filter
              fun entry => config.cacheid entry.name ≠ id := by
          funext cacheid slot
          have placed := fun entry mem => (refines.placed cacheid slot entry mem).1
          by_cases own : cacheid = id
          · rw [if_pos own]
            refine (List.filter_eq_nil_iff.mpr fun entry mem => ?_).symm
            simp [placed entry mem, own]
          · rw [if_neg own]
            refine (List.filter_eq_self.mpr fun entry mem => ?_).symm
            simp [placed entry mem, own]
        rw [every]
        exact refines.filterNames (fun name => config.cacheid name ≠ id) fun name => by
          by_cases own : config.cacheid name = id <;> simp [own]
      · simp only [inside, if_false, true_and]
        exact refines
  | gcExpires =>
    refine ⟨rfl, refines.filter _ fun time later name => ?_⟩
    have same := refines.same time later name
    unfold view at same
    cases found : (chainOf config caches name).find? (·.name = name) with
    | none =>
      rw [found] at same
      exact same.symm
    | some entry =>
      rw [found] at same
      rw [filter_some, expired_eq, Bool.not_not]
      cases alive : entry.cell.alive now with
      | true => exact same.symm
      | false =>
        have dead : entry.cell.alive time = false := by
          cases late : entry.cell.alive time with
          | false => rfl
          | true => rw [Cell.alive_of_later later late] at alive; cases alive
        rw [map_some, filter_some, dead] at same
        exact same.symm

theorem Refines.answers {ops : List (Int × Op ν)} (refines : Refines config now caches map)
    (later : ∀ call ∈ ops, now ≤ call.1)
    (ordered : ops.Pairwise fun first second => first.1 ≤ second.1)
    (fits : RunFits config ops caches) :
    VarCache.answers config ops caches = specAnswers config ops map := by
  induction ops generalizing now caches map with
  | nil => rfl
  | cons call ops ih =>
    obtain ⟨time, op⟩ := call
    obtain ⟨soon, -⟩ := List.forall_mem_cons.mp later
    obtain ⟨first, ordered⟩ := List.pairwise_cons.mp ordered
    obtain ⟨answer, next⟩ := (refines.later soon).step fits.1
    rw [VarCache.answers, specAnswers, answer, ih next first ordered fits.2]

theorem refines_empty (now : Int) : Refines config now (fun _ _ => []) (fun _ => none) :=
  ⟨fun _ _ => List.nodup_nil, fun _ _ _ none => (nomatch none), fun _ _ _ => rfl⟩

/-- **In a run of calls that fit, at times that do not decrease, all answers are those of the
map.** -/
theorem answers_of_fits (config : Config ν) {ops : List (Int × Op ν)}
    (ordered : ops.Pairwise fun first second => first.1 ≤ second.1)
    (fits : RunFits config ops fun _ _ => []) :
    VarCache.answers config ops (fun _ _ => []) = specAnswers config ops fun _ => none := by
  cases ops with
  | nil => rfl
  | cons call ops =>
    have later : ∀ any ∈ call :: ops, call.1 ≤ any.1 := List.forall_mem_cons.mpr
      ⟨Int.le_refl call.1, (List.pairwise_cons.mp ordered).1⟩
    exact (refines_empty call.1).answers later ordered fits

end

section

/-! ## Clients with names of their own -/

/-- The call finds memory. -/
def Op.fits : Op ν → Bool
  | .set _ _ _ fits | .incDec _ _ _ fits => fits
  | _ => true

/-- A call of the client whose names these are, or of another one. -/
def Op.Of (mine : Name → Prop) : Op ν → Prop
  | .set name _ _ _ | .get name | .isset name | .unset name | .incDec name _ _ _ => mine name
  | _ => True

/-- A call of another client, which changes none of these names. -/
def Op.Elsewhere (mine : Name → Prop) : Op ν → Prop
  | .set name _ _ _ | .get name | .isset name | .unset name | .incDec name _ _ _ => ¬mine name
  | .unsetByPrefix start => ∀ name, mine name → start.isPrefixOf name = false
  | .clear _ => False
  | .gcExpires => True

variable {config}

section

variable {mine : Name → Prop} {map map' : TimedMap ν} {op : Op ν} {time : Int}

theorem specStep_of (own : op.Of mine) (same : ∀ name, mine name → map name = map' name) :
    (specStep config time map op).1 = (specStep config time map' op).1 ∧ ∀ name, mine name →
      (specStep config time map op).2 name = (specStep config time map' op).2 name := by
  have put (cell : Option (Cell ν)) (own : Name) (name : Name) (mem : mine name) :
      update map own cell name = update map' own cell name := by
    by_cases eq : name = own
    · rw [eq, Function.update_self, Function.update_self]
    · rw [update_of_ne eq, update_of_ne eq, same name mem]
  have see (name : Name) (mem : mine name) : seen time map name = seen time map' name := by
    rw [seen, seen, same name mem]
  cases op with
  | set name value ttl fits =>
    cases fits
    · exact ⟨rfl, same⟩
    · exact ⟨rfl, put _ name⟩
  | get name =>
    simp only [specStep, see name own]
    split <;> exact ⟨rfl, same⟩
  | isset name => exact ⟨by simp only [specStep, see name own], same⟩
  | unset name => exact ⟨by simp only [specStep, see name own], put _ name⟩
  | incDec name count ttl fits =>
    simp only [specStep, see name own]
    exact ⟨trivial, put _ name⟩
  | unsetByPrefix start =>
    refine ⟨rfl, fun name mem => ?_⟩
    simp only [specStep, same name mem]
  | clear id =>
    cases id with
    | none => exact ⟨rfl, fun _ _ => rfl⟩
    | some id =>
      simp only [specStep]
      split
      · exact ⟨rfl, fun name mem => by simp only [same name mem]⟩
      · exact ⟨rfl, same⟩
  | gcExpires => exact ⟨rfl, same⟩

theorem specStep_elsewhere (elsewhere : op.Elsewhere mine) {name : Name} (mem : mine name) :
    (specStep config time map op).2 name = map name := by
  have other {own : Name} (others : ¬mine own) : name ≠ own := fun eq => others (eq ▸ mem)
  cases op with
  | set own value ttl fits =>
    cases fits
    · rfl
    · exact update_of_ne (other elsewhere) _ _
  | get own =>
    simp only [specStep]
    split <;> rfl
  | isset own => rfl
  | unset own => exact update_of_ne (other elsewhere) _ _
  | incDec own count ttl fits => exact update_of_ne (other elsewhere) _ _
  | unsetByPrefix start => simp only [specStep, elsewhere name mem, Bool.false_eq_true, if_false]
  | clear id => exact elsewhere.elim
  | gcExpires => rfl

/-- The calls of two clients, those of the first one marked. -/
def Calls (mine : Name → Prop) (calls : List (Bool × Int × Op ν)) : Prop :=
  ∀ call ∈ calls, if call.1 then call.2.2.Of mine else call.2.2.Elsewhere mine

theorem specAnswers_own {calls : List (Bool × Int × Op ν)} (two : Calls mine calls)
    (same : ∀ name, mine name → map name = map' name) :
    ((calls.zip (specAnswers config (calls.map Prod.snd) map)).filter fun call => call.1.1).map
      Prod.snd = specAnswers config ((calls.filter Prod.fst).map Prod.snd) map' := by
  induction calls generalizing map map' with
  | nil => rfl
  | cons call calls ih =>
    obtain ⟨ours, time, op⟩ := call
    obtain ⟨first, rest⟩ := List.forall_mem_cons.mp two
    cases ours with
    | true =>
      obtain ⟨answer, next⟩ : _ = (specStep config time map' op).1 ∧ _ := specStep_of first same
      simpa [specAnswers, answer] using ih rest next
    | false =>
      simpa [specAnswers] using ih rest fun name mem =>
        (specStep_elsewhere first mem).trans (same name mem)

end

theorem runFits_of_fits {ops : List (Int × Op ν)} (fits : ∀ call ∈ ops, call.2.fits = true)
    (caches : Caches ν) : RunFits config ops caches := by
  induction ops generalizing caches with
  | nil => trivial
  | cons call ops ih =>
    obtain ⟨time, op⟩ := call
    obtain ⟨first, rest⟩ := List.forall_mem_cons.mp fits
    refine ⟨?_, ih rest _⟩
    cases op with
    | set | incDec => exact .inl first
    | _ => trivial

/-- **The answers to a client's calls are those it would have without the other clients**, where
memory is not short, no other call is about one of its names, and none clears. -/
theorem answers_own (config : Config ν) {mine : Name → Prop} {calls : List (Bool × Int × Op ν)}
    (two : Calls mine calls) (ordered : calls.Pairwise fun first second => first.2.1 ≤ second.2.1)
    (fits : ∀ call ∈ calls, call.2.2.fits = true) :
    ((calls.zip (answers config (calls.map Prod.snd) fun _ _ => [])).filter
      fun call => call.1.1).map Prod.snd =
        answers config ((calls.filter Prod.fst).map Prod.snd) fun _ _ => [] := by
  have spec (part : List (Bool × Int × Op ν)) (sub : part.Sublist calls) :
      answers config (part.map Prod.snd) (fun _ _ => []) =
        specAnswers config (part.map Prod.snd) fun _ => none := by
    have later : (part.map Prod.snd).Pairwise fun first second => first.1 ≤ second.1 :=
      List.pairwise_map.mpr (ordered.sublist sub)
    have room : RunFits config (part.map Prod.snd) fun _ _ => [] := runFits_of_fits
      (List.forall_mem_map.mpr fun call mem => fits call (sub.subset mem)) _
    generalize part.map Prod.snd = ops at later room
    cases ops with
    | nil => rfl
    | cons call ops =>
      have after : ∀ any ∈ call :: ops, call.1 ≤ any.1 :=
        List.forall_mem_cons.mpr ⟨Int.le_refl _, (List.pairwise_cons.mp later).1⟩
      exact (refines_empty call.1).answers after later room
  rw [spec calls (.refl _), spec _ List.filter_sublist]
  exact specAnswers_own two fun _ _ => rfl

end

def single : Config Unit := ⟨fun _ => 0, 0, 0, 0, fun _ => 0⟩

theorem answers_counted :
    answers single [(100, .set [97] (.long 5) 10 true), (105, .incDec [97] 2 10 false),
        (115, .get [97]), (116, .isset [97])] (fun _ _ => []) =
      specAnswers single [(100, .set [97] (.long 5) 10 true), (105, .incDec [97] 2 10 false),
        (115, .get [97]), (116, .isset [97])] fun _ => none :=
  answers_of_fits single (by simp)
    ⟨.inl rfl, .inr ⟨⟨[97], .long 5, 100, 10⟩, 5, rfl, rfl⟩, trivial, trivial, trivial⟩

def twoClients : List (Bool × Int × Op Unit) :=
  [(true, 100, .set [97] (.long 5) 10 true), (false, 101, .unset [98]), (true, 105, .get [97])]

theorem answers_own_two :
    ((twoClients.zip (answers single (twoClients.map Prod.snd) fun _ _ => [])).filter
      fun call => call.1.1).map Prod.snd =
        answers single ((twoClients.filter Prod.fst).map Prod.snd) fun _ _ => [] :=
  @answers_own _ single (fun name => name = [97]) _
    (by simp [twoClients, Calls, Op.Of, Op.Elsewhere]) (by simp [twoClients])
    (by simp [twoClients, Op.fits])

/-- A set that fails for lack of memory has removed the old value. -/
theorem answers_failed :
    answers single [(0, .set [97] (.long 1) 0 true), (0, .set [97] (.long 2) 0 false),
        (0, .get [97])] (fun _ _ => []) ≠
      specAnswers single [(0, .set [97] (.long 1) 0 true), (0, .set [97] (.long 2) 0 false),
        (0, .get [97])] fun _ => none := by
  decide

end PhpExts.XCache.VarCache
