import Mathlib.Data.List.Basic

/-!
# Three tests for what is past its time

A walk of `apc_cache_insert` removes the stale slots it passes, the pass of
`apc_cache_default_expunge` removes the junk of every chain, and `apc_cache_find` does not return an
entry that is past its time to live. The first looks at the cache's time to live since the last
access and at the entry's since the creation; the second at the entry's, or if it has none at the
cache's, both since the creation; the third at the entry's alone. They agree on a slot exactly if
the cache's time to live does not decide (`oneNotion_iff`).

Times are `time_t` of 64 bits. A sum with the cache's time to live, a `zend_ulong`, is one of
unsigned numbers, which the cast takes back.
-/

namespace PhpExts.Apcu.Staleness

structure Slot where
  number : Nat
  ctime : Int64
  atime : Int64
  ttl : UInt32
  deriving DecidableEq

section

variable (cacheTtl : UInt64) (t : Int64)

/-- `(*slot)->value->ttl && (time_t) ((*slot)->ctime + (*slot)->value->ttl) < t`. -/
def Slot.expired (slot : Slot) : Bool :=
  slot.ttl ≠ 0 ∧ slot.ctime + slot.ttl.toUInt64.toInt64 < t

/-- `cache->ttl && (time_t)(*slot)->atime < (t - (time_t)cache->ttl)`. -/
def Slot.idle (slot : Slot) : Bool :=
  cacheTtl ≠ 0 ∧ slot.atime < t - cacheTtl.toInt64

/-- `cache->ttl` with `(time_t) ((*slot)->ctime + cache->ttl) < t`. -/
def Slot.old (slot : Slot) : Bool :=
  cacheTtl ≠ 0 ∧ (slot.ctime.toUInt64 + cacheTtl).toInt64 < t

/-- The test of `apc_cache_insert` for a slot of another key. -/
def Slot.stale (slot : Slot) : Bool := slot.idle cacheTtl t || slot.expired t

/-- The test of `apc_cache_default_expunge`. -/
def Slot.junk (slot : Slot) : Bool :=
  if slot.ttl ≠ 0 then slot.expired t else slot.old cacheTtl t

/-- The loop of `apc_cache_insert` over a chain, up to the slot of its key: what stays. -/
def insertLoop (isKey : Slot → Bool) : List Slot → List Slot
  | [] => []
  | slot :: rest =>
    if isKey slot then slot :: rest
    else if slot.stale cacheTtl t then insertLoop isKey rest
    else slot :: insertLoop isKey rest

/-- The loop of `apc_cache_default_expunge` over a chain: what stays. -/
def expungeLoop : List Slot → List Slot
  | [] => []
  | slot :: rest =>
    if slot.junk cacheTtl t then expungeLoop rest else slot :: expungeLoop rest

/-- The loop of `apc_cache_find` over a chain: what is returned. -/
def findLoop (isKey : Slot → Bool) : List Slot → Option Slot
  | [] => none
  | slot :: rest =>
    if isKey slot then if slot.expired t then none else some slot
    else findLoop isKey rest

/-- The three loops decide alike on the slots of a chain: an insertion that finds none of its key,
the pass of an expunge, and a find of each slot's key. A slot whose own time to live has not gone by
stays. -/
def OneNotion (chain : List Slot) : Prop :=
  ∀ slot ∈ chain,
    (slot ∈ insertLoop cacheTtl t (fun _ => false) chain ↔
      findLoop t (fun other => other = slot) chain = some slot) ∧
    (slot ∈ expungeLoop cacheTtl t chain ↔
      findLoop t (fun other => other = slot) chain = some slot) ∧
    (slot.ttl ≠ 0 → slot.expired t = false →
      slot ∈ insertLoop cacheTtl t (fun _ => false) chain ∧ slot ∈ expungeLoop cacheTtl t chain)

/-- The time to live of the cache does not decide: there is none, or the entry has its own, and it
has gone by or the slot has been accessed lately; or the slot has been accessed and made lately. -/
def Undecided (slot : Slot) : Prop :=
  cacheTtl = 0 ∨
    (slot.ttl ≠ 0 ∧ (slot.expired t = true ∨ slot.idle cacheTtl t = false)) ∨
    (slot.ttl = 0 ∧ slot.idle cacheTtl t = false ∧ slot.old cacheTtl t = false)

end

variable {cacheTtl : UInt64} {t : Int64} {slot : Slot} {chain : List Slot}

theorem insertLoop_eq_filter :
    insertLoop cacheTtl t (fun _ => false) chain = chain.filter fun s => !s.stale cacheTtl t := by
  induction chain with
  | nil => rfl
  | cons first rest ih =>
    rw [insertLoop, List.filter_cons, ih, if_neg Bool.false_ne_true]
    cases first.stale cacheTtl t <;> rfl

theorem expungeLoop_eq_filter :
    expungeLoop cacheTtl t chain = chain.filter fun s => !s.junk cacheTtl t := by
  induction chain with
  | nil => rfl
  | cons first rest ih =>
    rw [expungeLoop, List.filter_cons, ih]
    cases first.junk cacheTtl t <;> rfl

theorem findLoop_iff (mem : slot ∈ chain) :
    findLoop t (fun other => other = slot) chain = some slot ↔ slot.expired t = false := by
  induction chain with
  | nil => cases mem
  | cons first rest ih =>
    rw [findLoop]
    by_cases same : first = slot
    · subst same
      cases first.expired t <;> simp
    · have inRest : slot ∈ rest := by
        rcases List.mem_cons.mp mem with rfl | inRest
        · exact absurd rfl same
        · exact inRest
      rw [if_neg (by simpa using same)]
      exact ih inRest

theorem expired_of_ttl_eq_zero (none_ : slot.ttl = 0) : slot.expired t = false := by
  simp [Slot.expired, none_]

theorem not_idle_of_ttl_eq_zero (none_ : cacheTtl = 0) : slot.idle cacheTtl t = false := by
  simp [Slot.idle, none_]

theorem not_old_of_ttl_eq_zero (none_ : cacheTtl = 0) : slot.old cacheTtl t = false := by
  simp [Slot.old, none_]

theorem tests_agree_iff :
    (slot.stale cacheTtl t = slot.expired t ∧ slot.junk cacheTtl t = slot.expired t) ↔
      Undecided cacheTtl t slot := by
  rw [Undecided, Slot.stale, Slot.junk]
  by_cases own : slot.ttl = 0
  · rw [expired_of_ttl_eq_zero own, if_neg (by simpa using own), Bool.or_false]
    constructor
    · rintro ⟨notIdle, notOld⟩
      exact .inr (.inr ⟨own, notIdle, notOld⟩)
    · rintro (none_ | ⟨other, -⟩ | ⟨-, notIdle, notOld⟩)
      · exact ⟨not_idle_of_ttl_eq_zero none_, not_old_of_ttl_eq_zero none_⟩
      · exact absurd own other
      · exact ⟨notIdle, notOld⟩
  · rw [if_pos own]
    constructor
    · rintro ⟨agree, -⟩
      refine .inr (.inl ⟨own, ?_⟩)
      cases idle : slot.idle cacheTtl t with
      | false => exact .inr rfl
      | true =>
        rw [idle, Bool.true_or] at agree
        exact .inl agree.symm
    · rintro (none_ | ⟨-, expired | notIdle⟩ | ⟨none_, -⟩)
      · rw [not_idle_of_ttl_eq_zero none_, Bool.false_or]
        exact ⟨rfl, rfl⟩
      · rw [expired, Bool.or_true]
        exact ⟨rfl, rfl⟩
      · rw [notIdle, Bool.false_or]
        exact ⟨rfl, rfl⟩
      · exact absurd none_ own

/-- A cleanup, an expunge and a find have one notion of what is past its time exactly if the cache's
time to live decides on none of the slots. -/
theorem oneNotion_iff (cacheTtl : UInt64) (t : Int64) (chain : List Slot) :
    OneNotion cacheTtl t chain ↔ ∀ slot ∈ chain, Undecided cacheTtl t slot := by
  rw [OneNotion]
  refine forall₂_congr fun slot mem => ?_
  rw [← tests_agree_iff, findLoop_iff mem, insertLoop_eq_filter, expungeLoop_eq_filter,
    List.mem_filter, List.mem_filter]
  simp only [mem, true_and, Bool.not_eq_true']
  constructor
  · rintro ⟨insert, expunge, -⟩
    exact ⟨Bool.eq_iff_iff.mpr (by simpa using not_congr insert),
      Bool.eq_iff_iff.mpr (by simpa using not_congr expunge)⟩
  · rintro ⟨insert, expunge⟩
    rw [insert, expunge]
    exact ⟨.rfl, .rfl, fun _ alive => ⟨alive, alive⟩⟩

/-- An entry with an hour to live, in a cache with a minute, that has not been accessed for two. -/
theorem not_oneNotion : ¬∀ cacheTtl t chain, OneNotion cacheTtl t chain := by
  intro oneNotion
  have stays := (oneNotion 60 1120 [⟨0, 1000, 1000, 3600⟩] _ (.head _)).2.2
    (by decide) (by decide)
  have removed : insertLoop 60 1120 (fun _ => false) [⟨0, 1000, 1000, 3600⟩] = [] := by decide
  rw [removed] at stays
  cases stays.1

end PhpExts.Apcu.Staleness
