import Mathlib.Data.List.TakeWhile
import PhpExts.Zend.HashTable

/-!
# Which slot a key finds

The loops of `apc_cache_insert`, `apc_cache_find`, `apc_cache_update` and `apc_cache_delete` take a
slot for the one of a key if the hashes agree and `memcmp` finds the bytes at the stored key to be
those of the key, as many as the key has. The length of the stored key is not compared. A stored key
that begins with the key passes, and so does one that the key begins with, if the memory behind it
goes on as the key does.

The loops act on the slot of the key exactly if no such slot stands before it (`exact_iff`).
-/

namespace PhpExts.Apcu.KeyMatch

open PhpExts.Zend

/-- A slot: the hash and the bytes of its key, the bytes that lie behind these in the shared memory,
and what it holds. -/
structure Slot (V : Type) where
  h : Nat
  str : Bytes
  behind : Nat → UInt8
  value : V

variable {V : Type}

/-- The first `n` bytes at the key of a slot. -/
def Slot.memory (slot : Slot V) (n : Nat) : Bytes :=
  (slot.str ++ (List.range n).map slot.behind).take n

/-- The contents of a cache, as `apc_cache_insert` links slots: each has the hash of its key and is in
the chain of that hash. -/
structure Contents (V : Type) (hash : Bytes → Nat) (nslots : Nat) where
  slots : Nat → List (Slot V)
  hashed : ∀ i, ∀ slot ∈ slots i, slot.h = hash slot.str ∧ slot.h % nslots = i

section

variable (h : Nat) (strkey : Bytes)

/-- `h == (*slot)->key.h && !memcmp((*slot)->key.str, strkey, keylen)`. -/
def Slot.matches (slot : Slot V) : Bool :=
  slot.h = h ∧ slot.memory strkey.length = strkey

/-- The loop of `apc_cache_find`: the slot of the key, and whether its entry is returned. -/
def findLoop (expired : Slot V → Bool) : List (Slot V) → Option (Slot V) × Bool
  | [] => (none, false)
  | slot :: rest =>
    if slot.matches h strkey then (some slot, !expired slot) else findLoop expired rest

/-- The loop of `apc_cache_insert`: the slot of the key, the chain when the loop is left, and whether
the insertion is refused. -/
def insertLoop (stale keeps : Slot V → Bool) : List (Slot V) → Option (Slot V) × List (Slot V) × Bool
  | [] => (none, [], false)
  | slot :: rest =>
    if slot.matches h strkey then
      if keeps slot then (some slot, slot :: rest, true) else (some slot, rest, false)
    else
      let (found, chain, refused) := insertLoop stale keeps rest
      (found, if stale slot then chain else slot :: chain, refused)

/-- The loop of `apc_cache_update`: the slot of the key, and the chain behind the call. -/
def updateLoop (allowed : Slot V → Bool) (updater : V → V) :
    List (Slot V) → Option (Slot V) × List (Slot V)
  | [] => (none, [])
  | slot :: rest =>
    if slot.matches h strkey then
      (some slot,
        (if allowed slot then { slot with value := updater slot.value } else slot) :: rest)
    else
      let (found, chain) := updateLoop allowed updater rest
      (found, slot :: chain)

/-- The loop of `apc_cache_delete`: the slot of the key, and the chain behind the call. -/
def deleteLoop : List (Slot V) → Option (Slot V) × List (Slot V)
  | [] => (none, [])
  | slot :: rest =>
    if slot.matches h strkey then (some slot, rest)
    else
      let (found, chain) := deleteLoop rest
      (found, slot :: chain)

end

/-! ## The four functions -/

section

variable {hash : Bytes → Nat} {nslots : Nat} (contents : Contents V hash nslots) (strkey : Bytes)

/-- `cache->slots[s]`, by `apc_cache_hash_slot`. -/
def chain : List (Slot V) := contents.slots (hash strkey % nslots)

/-- What a function acts on is right: it has the key, and if any slot of the cache has the key, the
function acts on one. -/
def Right (found : Option (Slot V)) : Prop :=
  (∀ slot, found = some slot → slot.str = strkey) ∧
    ((∃ i, ∃ slot ∈ contents.slots i, slot.str = strkey) → found.isSome)

/-- The four functions act on a slot exactly when its key is the key they are called with. -/
structure Exact : Prop where
  find : ∀ expired,
    Right contents strkey (findLoop (hash strkey) strkey expired (chain contents strkey)).1
  insert : ∀ stale keeps,
    Right contents strkey (insertLoop (hash strkey) strkey stale keeps (chain contents strkey)).1
  update : ∀ allowed updater,
    Right contents strkey (updateLoop (hash strkey) strkey allowed updater (chain contents strkey)).1
  delete : Right contents strkey (deleteLoop (hash strkey) strkey (chain contents strkey)).1

def Impostor (slot : Slot V) : Prop :=
  slot.h = hash strkey ∧ slot.str ≠ strkey ∧ slot.memory strkey.length = strkey

def Clear : Prop :=
  ∀ slot ∈ (chain contents strkey).takeWhile fun slot => slot.str ≠ strkey,
    ¬@Impostor V hash strkey slot

end

/-! ## What the loops act on -/

section

variable {h : Nat} {strkey : Bytes} {slots : List (Slot V)}

theorem findLoop_fst (expired : Slot V → Bool) :
    (findLoop h strkey expired slots).1 = slots.find? fun slot => slot.matches h strkey := by
  induction slots with
  | nil => rfl
  | cons slot rest ih =>
    rw [findLoop, List.find?_cons]
    cases slot.matches h strkey with
    | true => rfl
    | false => exact ih

theorem insertLoop_fst (stale keeps : Slot V → Bool) : (insertLoop h strkey stale keeps slots).1 =
      slots.find? fun slot => slot.matches h strkey := by
  induction slots with
  | nil => rfl
  | cons slot rest ih =>
    rw [insertLoop, List.find?_cons]
    cases slot.matches h strkey with
    | true => cases keeps slot <;> rfl
    | false => exact ih

theorem updateLoop_fst (allowed : Slot V → Bool) (updater : V → V) :
    (updateLoop h strkey allowed updater slots).1 =
      slots.find? fun slot => slot.matches h strkey := by
  induction slots with
  | nil => rfl
  | cons slot rest ih =>
    rw [updateLoop, List.find?_cons]
    cases slot.matches h strkey with
    | true => rfl
    | false => exact ih

theorem deleteLoop_fst :
    (deleteLoop h strkey slots).1 = slots.find? fun slot => slot.matches h strkey := by
  induction slots with
  | nil => rfl
  | cons slot rest ih =>
    rw [deleteLoop, List.find?_cons]
    cases slot.matches h strkey with
    | true => rfl
    | false => exact ih

end

section

variable {slot : Slot V} {strkey : Bytes}

theorem memory_length : slot.memory slot.str.length = slot.str := by
  rw [Slot.memory, List.take_left]

theorem memory_of_longer (longer : strkey.length ≤ slot.str.length) :
    slot.memory strkey.length = slot.str.take strkey.length := by
  rw [Slot.memory, List.take_append_of_le_length longer]

/-- Which slots are impostors: the stored key goes on behind the key, or the memory behind it goes on
as the key does. -/
theorem impostor_iff {hash : Bytes → Nat} : @Impostor V hash strkey slot ↔ slot.h = hash strkey ∧
      ((∃ more, more ≠ [] ∧ slot.str = strkey ++ more) ∨
        (∃ more, more ≠ [] ∧ strkey = slot.str ++ more ∧
          (List.range more.length).map slot.behind = more)) := by
  rw [Impostor]
  refine and_congr_right fun _ => ?_
  constructor
  · rintro ⟨other, same⟩
    rcases Nat.lt_or_ge slot.str.length strkey.length with shorter | longer
    · right
      rw [Slot.memory, List.take_append, List.take_of_length_le (Nat.le_of_lt shorter)] at same
      refine ⟨strkey.drop slot.str.length, ?_, ?_, ?_⟩
      · rw [Ne, List.drop_eq_nil_iff]
        omega
      · rw [← same, List.drop_left]
      · have dropped := congrArg (List.drop slot.str.length) same
        rw [List.drop_left] at dropped
        rw [← dropped, List.length_take, List.length_map, List.length_range, ← List.map_take,
          List.take_range]
    · left
      rw [memory_of_longer longer] at same
      refine ⟨slot.str.drop strkey.length, ?_, ?_⟩
      · intro nothing
        apply other
        have whole := List.take_append_drop strkey.length slot.str
        rw [same, nothing, List.append_nil] at whole
        exact whole.symm
      · have whole := List.take_append_drop strkey.length slot.str
        rw [same] at whole
        exact whole.symm
  · rintro (⟨more, some_more, longer⟩ | ⟨more, some_more, rfl, goesOn⟩)
    · refine ⟨fun same => some_more ?_, ?_⟩
      · rw [same] at longer
        exact List.self_eq_append_right.mp longer
      · rw [memory_of_longer (by rw [longer, List.length_append]; omega), longer, List.take_left]
    · refine ⟨fun same => some_more ?_, ?_⟩
      · exact List.self_eq_append_right.mp same
      · have room : more.length ≤ slot.str.length + more.length := Nat.le_add_left _ _
        rw [Slot.memory, List.length_append, List.take_append,
          List.take_of_length_le (Nat.le_add_right _ _), Nat.add_sub_cancel_left, ← List.map_take,
          List.take_range, Nat.min_eq_left room, goesOn]

end

variable {hash : Bytes → Nat} {nslots : Nat} {contents : Contents V hash nslots} {strkey : Bytes}

theorem matches_of_key {i : Nat} {slot : Slot V} (mem : slot ∈ contents.slots i)
    (key : slot.str = strkey) :
    slot ∈ chain contents strkey ∧ slot.matches (hash strkey) strkey = true := by
  obtain ⟨hashed, placed⟩ := contents.hashed i slot mem
  rw [hashed, key] at placed
  refine ⟨by rw [chain, placed]; exact mem, ?_⟩
  rw [Slot.matches, decide_eq_true_eq, hashed, key]
  refine ⟨rfl, ?_⟩
  rw [← key]
  exact memory_length

theorem right_find_iff : Right contents strkey
        ((chain contents strkey).find? fun slot => slot.matches (hash strkey) strkey) ↔
      Clear contents strkey := by
  have found_of_key : (∃ i, ∃ slot ∈ contents.slots i, slot.str = strkey) →
      ((chain contents strkey).find? fun slot => slot.matches (hash strkey) strkey).isSome := by
    rintro ⟨i, slot, mem, key⟩
    obtain ⟨here, hit⟩ := matches_of_key mem key
    exact List.find?_isSome.mpr ⟨slot, here, hit⟩
  have keyed : ∀ slot ∈ chain contents strkey, slot.str = strkey →
      slot.matches (hash strkey) strkey = true := fun slot mem key => (matches_of_key mem key).2
  rw [Right, Clear]
  constructor
  · rintro ⟨right, -⟩ slot before ⟨sameHash, other, same⟩
    have hit : slot.matches (hash strkey) strkey = true := by
      rw [Slot.matches, decide_eq_true_eq]
      exact ⟨sameHash, same⟩
    -- The first slot that matches is among those before the key's.
    have split := List.takeWhile_append_dropWhile (p := fun slot => decide (slot.str ≠ strkey))
      (l := chain contents strkey)
    rw [← split, List.find?_append] at right
    obtain ⟨first, isFirst⟩ := Option.isSome_iff_exists.mp
      (List.find?_isSome.mpr ⟨slot, before, hit⟩)
    rw [isFirst] at right
    have mem := List.mem_of_find?_eq_some isFirst
    have differs := List.mem_takeWhile_imp mem
    exact absurd (right first rfl) (of_decide_eq_true differs)
  · intro clear
    refine ⟨fun slot isFirst => ?_, found_of_key⟩
    by_contra other
    have hit := List.find?_some isFirst
    simp only [Slot.matches, decide_eq_true_eq] at hit
    obtain ⟨-, front, back, shape, before⟩ := List.find?_eq_some_iff_append.mp isFirst
    apply clear slot _ ⟨hit.1, other, hit.2⟩
    have none_of_key : ∀ s ∈ front ++ [slot], decide (s.str ≠ strkey) = true := by
      intro s mem
      rw [decide_eq_true_eq]
      intro key
      rcases List.mem_append.mp mem with mem | mem
      · have inChain : s ∈ chain contents strkey := by
          rw [shape]
          exact List.mem_append_left _ mem
        have := before s mem
        rw [keyed s inChain key] at this
        cases this
      · rw [List.mem_singleton.mp mem] at key
        exact other key
    have regroup : chain contents strkey = (front ++ [slot]) ++ back := by
      rw [shape, List.append_assoc]
      rfl
    rw [regroup, List.takeWhile_append_of_pos none_of_key]
    exact List.mem_append_left _ (List.mem_append_right _ (.head _))

/-- The functions act on the slot of a key, and on no other, exactly if no impostor stands before
it. -/
theorem exact_iff {V : Type} {hash : Bytes → Nat} {nslots : Nat}
    (contents : Contents V hash nslots) (strkey : Bytes) :
    Exact contents strkey ↔ Clear contents strkey := by
  rw [← right_find_iff]
  constructor
  · intro exact_
    have := exact_.delete
    rwa [deleteLoop_fst] at this
  · intro right
    refine ⟨fun expired => ?_, fun stale keeps => ?_, fun allowed updater => ?_, ?_⟩
    · rwa [findLoop_fst]
    · rwa [insertLoop_fst]
    · rwa [updateLoop_fst]
    · rwa [deleteLoop_fst]

/-- The key `a`, a zero byte and `b` is stored, and `a` has the same hash. -/
def collision : Contents Unit (fun _ => 7) 1 where
  slots i := if i = 0 then [⟨7, [97, 0, 98, 0], fun _ => 0, ()⟩] else []
  hashed i slot mem := by
    by_cases zero : i = 0
    · rw [if_pos zero, List.mem_singleton] at mem
      rw [mem, zero]
      exact ⟨rfl, rfl⟩
    · rw [if_neg zero] at mem
      cases mem

theorem not_exact : ¬∀ (hash : Bytes → Nat) (nslots : Nat) (contents : Contents Unit hash nslots)
    (strkey : Bytes), Exact contents strkey := by
  intro exact_
  have deletes := (exact_ _ _ collision [97, 0]).delete.1 _ rfl
  cases deletes

end PhpExts.Apcu.KeyMatch
