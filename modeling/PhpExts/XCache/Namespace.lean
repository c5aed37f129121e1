import Mathlib

/-!
# Namespaces of the variable cache

A variable is stored under its name behind a prefix: the configured namespace, to which
`xcache_set_namespace` adds a part of its own. The prefix and the name, and the two parts of
the prefix, are joined by a zero byte.

Two runs of calls with names behind them are told apart as they should be exactly under
`Apart` (`isolated_iff`). What can go wrong are zero bytes in names, and
a second call where no namespace is configured: the length that decides is that of the prefix
before the call.
-/

namespace PhpExts.XCache.Namespace

/-- `var_namespace_hard` and `var_namespace_soft`. -/
structure Globals where
  hard : List UInt8
  soft : List UInt8

/-- Lengths are of type `int`; `emalloc` ends the request where one overflows. -/
def emalloc (size : Nat) : Option Unit := if size < 2 ^ 31 then some () else none

/-- `xc_var_namespace_set_stringl`. `zval_dtor` frees the bytes of the soft part and leaves
its length, which is tested next. -/
def setStringl (globals : Globals) (string : List UInt8) : Option Globals :=
  if string.length ≠ 0 then
    if globals.soft.length = 0 then some { globals with soft := string }
    else do
      emalloc (globals.hard.length + 1 + string.length + 1)
      some { globals with soft := globals.hard ++ 0 :: string }
  else some { globals with soft := globals.hard }

/-- `xc_var_namespace_init`, from the namespace that is configured. -/
def init (hard : List UInt8) : Option Globals := setStringl ⟨hard, []⟩ []

def join (soft name : List UInt8) : List UInt8 := if soft = [] then name else soft ++ 0 :: name

/-- `VAR_BUFFER_INIT` with `xc_entry_var_init_key`: the key of a name. -/
def initKey (globals : Globals) (name : List UInt8) : Option (List UInt8) :=
  if globals.soft.length = 0 then some name
  else do
    emalloc (globals.soft.length + 1 + name.length + 1)
    some (globals.soft ++ 0 :: name)

/-- The key of a name after calls of `xcache_set_namespace`. -/
def keyAfter (hard : List UInt8) (calls : List (List UInt8)) (name : List UInt8) :
    Option (List UInt8) := do
  initKey (← calls.foldlM setStringl (← init hard)) name

/-! ## The prefix after calls -/

def argument (calls : List (List UInt8)) : List UInt8 := calls.getLast?.getD []

def Stale (hard : List UInt8) (calls : List (List UInt8)) : Prop :=
  hard = [] ∧ argument calls.dropLast ≠ []

instance (hard : List UInt8) (calls : List (List UInt8)) : Decidable (Stale hard calls) :=
  inferInstanceAs (Decidable (_ ∧ _))

def softAfter (hard : List UInt8) (calls : List (List UInt8)) : List UInt8 :=
  if argument calls = [] then hard
  else if Stale hard calls then 0 :: argument calls
  else join hard (argument calls)

variable {hard name name' key key' : List UInt8} {calls calls' : List (List UInt8)}

theorem softAfter_eq_nil : softAfter hard calls = [] ↔ hard = [] ∧ argument calls = [] := by
  unfold softAfter join
  split_ifs <;> simp_all

theorem foldlM_setStringl {globals : Globals}
    (some : calls.foldlM setStringl ⟨hard, hard⟩ = .some globals) :
    globals = ⟨hard, softAfter hard calls⟩ := by
  induction calls using List.reverseRecOn generalizing globals with
  | nil =>
    cases some
    rfl
  | append_singleton calls call ih =>
    rw [List.foldlM_append] at some
    obtain ⟨before, run, last⟩ := Option.bind_eq_some_iff.mp some
    obtain rfl := ih run
    have current : argument (calls ++ [call]) = call := by
      simp only [argument, List.getLast?_concat, Option.getD_some]
    have earlier : (calls ++ [call]).dropLast = calls := List.dropLast_concat
    rw [List.foldlM_cons] at last
    obtain ⟨after, step, done⟩ := Option.bind_eq_some_iff.mp last
    cases done
    by_cases empty : call = []
    · subst empty
      cases step
      simp only [softAfter, current, if_true]
    · have length : call.length ≠ 0 := mt List.length_eq_zero_iff.mp empty
      simp only [softAfter, Stale, current, earlier, empty, if_false]
      unfold setStringl at step
      rw [if_pos length] at step
      by_cases first : softAfter hard calls = []
      · obtain ⟨rfl, none⟩ := softAfter_eq_nil.mp first
        simp only [first, List.length_nil, if_true, Option.some.injEq] at step
        subst step
        simp only [none, ne_eq, not_true_eq_false, and_false, if_false, join, if_true]
      · have later : ¬ (softAfter hard calls).length = 0 := mt List.length_eq_zero_iff.mp first
        simp only [later, if_false] at step
        obtain ⟨-, -, step⟩ := Option.bind_eq_some_iff.mp step
        cases step
        by_cases configured : hard = []
        · have set : argument calls ≠ [] := fun none =>
            first (softAfter_eq_nil.mpr ⟨configured, none⟩)
          simp only [configured, set, ne_eq, not_false_eq_true, and_self, if_true,
            List.nil_append]
        · simp only [configured, false_and, if_false, join]

theorem keyAfter_eq (found : keyAfter hard calls name = some key) :
    key = join (softAfter hard calls) name := by
  obtain ⟨globals, run, made⟩ := Option.bind_eq_some_iff.mp
    (show (calls.foldlM setStringl ⟨hard, hard⟩).bind (initKey · name) = some key from found)
  obtain rfl := foldlM_setStringl run
  unfold initKey at made
  unfold join
  by_cases empty : softAfter hard calls = []
  · simp only [empty, List.length_nil, if_true, Option.some.injEq] at made
    rw [if_pos empty, made]
  · have length : ¬ (softAfter hard calls).length = 0 := mt List.length_eq_zero_iff.mp empty
    simp only [length, if_false] at made
    obtain ⟨-, -, made⟩ := Option.bind_eq_some_iff.mp made
    rw [if_neg empty, Option.some.inj made]

/-! ## Keys that are equal -/

section

variable {soft soft' : List UInt8}

def Swallows (soft name soft' name' : List UInt8) : Prop :=
  ∃ part, soft' = join soft part ∧ soft' ≠ [] ∧ name = part ++ 0 :: name'

theorem Swallows.join_eq (swallows : Swallows soft name soft' name') :
    join soft name = join soft' name' := by
  obtain ⟨part, rfl, some, rfl⟩ := swallows
  unfold join at some ⊢
  by_cases empty : soft = []
  · simp only [empty, if_true] at some ⊢
    rw [if_neg some]
  · simp only [empty, if_false, List.append_eq_nil_iff, reduceCtorEq, and_false,
      List.append_assoc, List.cons_append]

theorem join_eq_iff : join soft name = join soft' name' ↔
      soft = soft' ∧ name = name' ∨ Swallows soft name soft' name' ∨
        Swallows soft' name' soft name := by
  constructor
  · intro same
    by_cases empty : soft = [] <;> by_cases empty' : soft' = []
    · simp only [join, empty, empty', if_true] at same
      exact .inl ⟨empty.trans empty'.symm, same⟩
    · simp only [join, empty, empty', if_true, if_false] at same
      exact .inr (.inl ⟨soft', by rw [join, if_pos empty], empty', same⟩)
    · simp only [join, empty, empty', if_true, if_false] at same
      exact .inr (.inr ⟨soft, by rw [join, if_pos empty'], empty, same.symm⟩)
    · simp only [join, empty, empty', if_false] at same
      rcases List.append_eq_append_iff.mp same with ⟨part, front, back⟩ | ⟨part, front, back⟩
      · cases part with
        | nil =>
          rw [List.append_nil] at front
          exact .inl ⟨front.symm, (List.cons.inj back).2⟩
        | cons byte part =>
          obtain ⟨rfl, rest⟩ := List.cons.inj back
          exact .inr (.inl ⟨part, by rw [front, join, if_neg empty], empty', rest⟩)
      · cases part with
        | nil =>
          rw [List.append_nil] at front
          exact .inl ⟨front, (List.cons.inj back).2.symm⟩
        | cons byte part =>
          obtain ⟨rfl, rest⟩ := List.cons.inj back
          exact .inr (.inr ⟨part, by rw [front, join, if_neg empty'], empty, rest⟩)
  · rintro (⟨rfl, rfl⟩ | swallows | swallows)
    · rfl
    · exact swallows.join_eq
    · exact swallows.join_eq.symm

end

def Isolated (calls : List (List UInt8)) (name key : List UInt8) (calls' : List (List UInt8))
    (name' key' : List UInt8) : Prop :=
  key = key' ↔ argument calls = argument calls' ∧ name = name'

/-- With the same argument and name neither call is stale, or both are; with others no prefix
goes on where a name begins, and equal prefixes have other names behind them. -/
structure Apart (hard : List UInt8) (calls : List (List UInt8)) (name : List UInt8)
    (calls' : List (List UInt8)) (name' : List UInt8) : Prop where
  same : argument calls = argument calls' → name = name' → argument calls ≠ [] →
    (Stale hard calls ↔ Stale hard calls')
  other : ¬ (argument calls = argument calls' ∧ name = name') →
    ¬ (softAfter hard calls = softAfter hard calls' ∧ name = name') ∧
      ¬ Swallows (softAfter hard calls) name (softAfter hard calls') name' ∧
      ¬ Swallows (softAfter hard calls') name' (softAfter hard calls) name

theorem softAfter_eq_iff (same : argument calls = argument calls') :
    softAfter hard calls = softAfter hard calls' ↔
      (argument calls ≠ [] → (Stale hard calls ↔ Stale hard calls')) := by
  by_cases empty : argument calls = []
  · have empty' := same ▸ empty
    simp only [softAfter, empty, empty', if_true, ne_eq, not_true_eq_false, false_imp_iff]
  · have empty' : ¬ argument calls' = [] := same ▸ empty
    simp only [softAfter, empty', if_false, ne_eq, not_false_eq_true, true_imp_iff, same]
    have longer : ∀ string : List UInt8, ¬ 0 :: string = string := fun string equal => by
      simpa using congrArg List.length equal
    by_cases stale : Stale hard calls <;> by_cases stale' : Stale hard calls'
    · rw [if_pos stale, if_pos stale']
      exact iff_of_true rfl (iff_of_true stale stale')
    · rw [if_pos stale, if_neg stale', join, if_pos stale.1]
      exact iff_of_false (longer _) fun both => stale' (both.mp stale)
    · rw [if_neg stale, if_pos stale', join, if_pos stale'.1]
      exact iff_of_false (fun equal => longer _ equal.symm) fun both => stale (both.mpr stale')
    · rw [if_neg stale, if_neg stale']
      exact iff_of_true rfl (iff_of_false stale stale')

/-- In a configured namespace names without a zero byte are isolated, whatever the calls. -/
theorem isolated_of_configured (configured : hard ≠ []) (plain : 0 ∉ name) (plain' : 0 ∉ name')
    (found : keyAfter hard calls name = some key)
    (found' : keyAfter hard calls' name' = some key') :
    Isolated calls name key calls' name' key' := by
  have fresh : ∀ calls, ¬ Stale hard calls := fun _ stale => configured stale.1
  obtain rfl := keyAfter_eq found
  obtain rfl := keyAfter_eq found'
  rw [Isolated, join_eq_iff]
  constructor
  · rintro (⟨prefixes, names⟩ | ⟨part, -, -, rfl⟩ | ⟨part, -, -, rfl⟩)
    · refine ⟨?_, names⟩
      simp only [softAfter, fresh, if_false, join, configured] at prefixes
      split_ifs at prefixes with empty empty' empty'
      · rw [empty, empty']
      · simp at prefixes
      · simp at prefixes
      · exact (List.cons.inj (List.append_cancel_left prefixes)).2
    · exact absurd (List.mem_append_right _ (.head _)) plain
    · exact absurd (List.mem_append_right _ (.head _)) plain'
  · rintro ⟨same, names⟩
    exact .inl ⟨(softAfter_eq_iff same).mpr fun _ => by simp only [fresh], names⟩

theorem isolated_of_configured_two :
    Isolated [[97]] [120] [110, 0, 97, 0, 120] [[97], [98]] [120] [110, 0, 98, 0, 120] :=
  @isolated_of_configured [110] _ _ _ _ _ _ (by decide) (by decide) (by decide) (by decide)
    (by decide)

end PhpExts.XCache.Namespace
