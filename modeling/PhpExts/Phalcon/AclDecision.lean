import PhpExts.Phalcon.Acl
import Mathlib

/-!
# Decisions of the access control list

The ledger of a run is the list of the rules its calls have set, the newest in front. It says
which rule decides a query and which callback goes with it. The object gives the action of
the deciding rule, and its callback exactly if the callback has not been taken away since
and no later role of the inheritance stands in its place (`decides_iff`).
-/

namespace PhpExts.Phalcon.Acl

open Option (some_or map_some map_none)

variable {F : Type}

local instance lawfulName : LawfulBEq Name := inferInstance

structure Rule (F : Type) where
  role : Name
  resource : Name
  access : Name
  action : Action
  callback : Option (Callback F)

namespace Rule

def IsFor (role resource access : Name) (rule : Rule F) : Prop :=
  rule.role = role ∧ rule.resource = resource ∧ rule.access = access

instance (role resource access : Name) (rule : Rule F) :
    Decidable (rule.IsFor role resource access) :=
  inferInstanceAs (Decidable (_ ∧ _ ∧ _))

def key (rule : Rule F) : Name := Memory.accessKey rule.role rule.resource rule.access

end Rule

/-- `_allowOrDeny` finds the role, the resource and every access. -/
def Memory.accepts (acl : Memory F) (role resource : Name) (access : Access) : Bool :=
  decide (role ∈ acl.rolesNames) && decide (resource ∈ acl.resourcesNames) &&
    match access with
    | .one name => decide (name = star ∨ listKey resource name ∈ acl.accessList)
    | .many names => names.all fun name => decide (listKey resource name ∈ acl.accessList)

def Memory.rulesFor (acl : Memory F) (resource : Name) (access : Access) (action : Action)
    (func : Option (Callback F)) (role : Name) : List (Rule F) :=
  if acl.accepts role resource access then
    access.names.map fun name => ⟨role, resource, name, action, func⟩
  else []

def Memory.rules (acl : Memory F) (role resource : Name) (access : Access) (action : Action)
    (func : Option (Callback F)) : List (Rule F) :=
  if role = star then acl.rolesNames.flatMap (acl.rulesFor resource access action func)
  else acl.rulesFor resource access action func role

def Call.rules (acl : Memory F) : Call F → List (Rule F)
  | .allow role resource access func => acl.rules role resource access .allow func
  | .deny role resource access func => acl.rules role resource access .deny func
  | .addRole .. | .addInherit .. | .addResource .. => []

/-- A run of calls, all of which return, with its ledger. -/
def run (looseEq : Name → Name → Bool) (fuel : Nat) :
    Memory F → List (Rule F) → List (Call F) → Option (Memory F × List (Rule F))
  | acl, ledger, [] => some (acl, ledger)
  | acl, ledger, call :: calls =>
    match call.perform looseEq fuel acl with
    | none => none
    | some acl' => run looseEq fuel acl' ((call.rules acl).reverse ++ ledger) calls

def latest (ledger : List (Rule F)) (role resource access : Name) : Option (Rule F) :=
  ledger.find? fun rule => rule.IsFor role resource access

def inheritedRule (ledger : List (Rule F)) (inheritedRoles : List Name)
    (resource access : Name) : Option (Rule F) :=
  inheritedRoles.reverse.findSome? fun inherited => latest ledger inherited resource access

def wildcardRule (ledger : List (Rule F)) (inheritedRoles : List Name) (role resource : Name) :
    Option (Rule F) :=
  (latest ledger role resource star).or
    (inheritedRoles.findSome? fun inherited => latest ledger inherited resource star)

/-- The first of the levels of a query that has a rule gives the deciding rule. -/
def decidingRule (ledger : List (Rule F)) (inheritedRoles : List Name)
    (role resource access : Name) : Option (Rule F) :=
  (latest ledger role resource access).or
    ((inheritedRule ledger inheritedRoles resource access).or
      ((wildcardRule ledger inheritedRoles role resource).or
        (wildcardRule ledger inheritedRoles role star)))

def Decides (acl : Memory F) (ledger : List (Rule F)) (role resource access : Name) : Prop :=
  match decidingRule ledger (acl.roleInherits role) role resource access with
  | none => acl.isAllowed role resource access = .answer (acl.defaultAccess == 1)
  | some rule => acl.findAccess role resource access = (some rule.action, rule.callback) ∧
      acl.isAllowed role resource access = acl.conclude (some rule.action, rule.callback)

def Renewed (ledger : List (Rule F)) (rule : Rule F) : Prop :=
  rule.callback = none →
    ∀ older ∈ ledger, older.IsFor rule.role rule.resource rule.access → older.callback = none

/-- When the callback of the deciding rule is the one that is consulted. A rule of an inherited
role for the access itself has to be that of the last role of the inheritance, or to have
no callback. -/
def CallbackKept (ledger : List (Rule F)) (inheritedRoles : List Name)
    (role resource access : Name) : Prop :=
  match latest ledger role resource access,
      inheritedRule ledger inheritedRoles resource access with
  | none, some rule =>
    if inheritedRoles.getLast? = some rule.role then Renewed ledger rule
    else rule.callback = none
  | _, _ => ∀ rule, decidingRule ledger inheritedRoles role resource access = some rule →
      Renewed ledger rule

def Plain (name : Name) : Prop := bang ∉ name

theorem append_bang_inj {left left' right right' : Name} (plain : Plain left)
    (plain' : Plain left') (same : left ++ bang :: right = left' ++ bang :: right') :
    left = left' ∧ right = right' := by
  induction left generalizing left' with
  | nil =>
    cases left' with
    | nil => simpa using same
    | cons byte left' =>
      have first : bang = byte := by simpa using (List.cons.inj same).1
      exact absurd (first ▸ .head _) plain'
  | cons byte left ih =>
    cases left' with
    | nil =>
      have first : byte = bang := by simpa using (List.cons.inj same).1
      exact absurd (first ▸ .head _) plain
    | cons byte' left' =>
      obtain ⟨first, rest⟩ := List.cons.inj same
      obtain ⟨sameLeft, sameRight⟩ := ih (fun mem => plain (.tail _ mem))
        (fun mem => plain' (.tail _ mem)) rest
      exact ⟨by rw [first, sameLeft], sameRight⟩

theorem Rule.key_eq_iff {rule : Rule F} {role resource access : Name} (plainRole : Plain role)
    (plainResource : Plain resource) (ruleRole : Plain rule.role)
    (ruleResource : Plain rule.resource) :
    rule.key = Memory.accessKey role resource access ↔ rule.IsFor role resource access := by
  constructor
  · intro same
    obtain ⟨sameRole, rest⟩ := append_bang_inj ruleRole plainRole same
    obtain ⟨sameResource, sameAccess⟩ := append_bang_inj ruleResource plainResource rest
    exact ⟨sameRole, sameResource, sameAccess⟩
  · rintro ⟨rfl, rfl, rfl⟩
    rfl

/-! ## What a run keeps -/

/-- The two arrays hold what the ledger says, and every name is plain. -/
structure Kept (acl : Memory F) (ledger : List (Rule F)) : Prop where
  access : ∀ key, acl.access key = (ledger.find? (·.key = key)).map (·.action)
  func : ∀ key, acl.func key = (ledger.filter (·.key = key)).findSome? (·.callback)
  roles : ∀ role ∈ acl.rolesNames, Plain role
  inherits : ∀ role, ∀ inherited ∈ acl.roleInherits role, inherited ∈ acl.rolesNames
  rules : ∀ rule ∈ ledger, Plain rule.role ∧ Plain rule.resource

def Rule.enter (acl : Memory F) (rule : Rule F) : Memory F :=
  acl.setRule rule.key rule.action rule.callback

theorem Kept.enter {acl : Memory F} {ledger : List (Rule F)} (kept : Kept acl ledger)
    {rule : Rule F} (plainRole : Plain rule.role) (plainResource : Plain rule.resource) :
    Kept (rule.enter acl) (rule :: ledger) where
  access key := by
    by_cases same : rule.key = key
    · subst same
      simp [Rule.enter, Memory.setRule]
    · simp [Rule.enter, Memory.setRule, Function.update_of_ne (Ne.symm same), same, kept.access]
  func key := by
    by_cases same : rule.key = key
    · subst same
      cases given : rule.callback with
      | none => simp [Rule.enter, Memory.setRule, given, kept.func]
      | some callback => simp [Rule.enter, Memory.setRule, given]
    · cases given : rule.callback with
      | none => simp [Rule.enter, Memory.setRule, given, same, kept.func]
      | some callback =>
        simp [Rule.enter, Memory.setRule, given, Function.update_of_ne (Ne.symm same), same,
          kept.func]
  roles := kept.roles
  inherits := kept.inherits
  rules entry mem := by
    rcases List.mem_cons.mp mem with rfl | mem
    · exact ⟨plainRole, plainResource⟩
    · exact kept.rules entry mem

theorem Kept.enterAll {rules : List (Rule F)} {acl : Memory F} {ledger : List (Rule F)}
    (kept : Kept acl ledger) (plain : ∀ rule ∈ rules, Plain rule.role ∧ Plain rule.resource) :
    Kept (rules.foldl Rule.enter acl) (rules.reverse ++ ledger) := by
  induction rules generalizing acl ledger with
  | nil => exact kept
  | cons rule rules ih =>
    have ⟨plainRole, plainResource⟩ := plain rule (.head _)
    have entered := ih (kept.enter plainRole plainResource)
      (fun other mem => plain other (.tail _ mem))
    simpa using entered

/-! ## What `allow` and `deny` set -/

namespace Memory

theorem accepts_of_registers {acl acl' : Memory F} (roles : acl'.rolesNames = acl.rolesNames)
    (resources : acl'.resourcesNames = acl.resourcesNames)
    (accesses : acl'.accessList = acl.accessList) (role resource : Name) (access : Access) :
    acl'.accepts role resource access = acl.accepts role resource access := by
  simp only [accepts, roles, resources, accesses]

theorem registers_foldl_enter (rules : List (Rule F)) (acl : Memory F) :
    (rules.foldl Rule.enter acl).rolesNames = acl.rolesNames ∧
      (rules.foldl Rule.enter acl).resourcesNames = acl.resourcesNames ∧
      (rules.foldl Rule.enter acl).accessList = acl.accessList := by
  induction rules generalizing acl with
  | nil => exact ⟨rfl, rfl, rfl⟩
  | cons rule rules ih => exact ih (rule.enter acl)

theorem roleInherits_foldl_enter (rules : List (Rule F)) (acl : Memory F) :
    (rules.foldl Rule.enter acl).roleInherits = acl.roleInherits := by
  induction rules generalizing acl with
  | nil => rfl
  | cons rule rules ih => exact ih (rule.enter acl)

theorem allowOrDeny_spec (acl : Memory F) (role resource : Name) (access : Access)
    (action : Action) (func : Option (Callback F)) :
    (acl.allowOrDeny role resource access action func).1 =
        (acl.rulesFor resource access action func role).foldl Rule.enter acl ∧
      ((∃ thrown, (acl.allowOrDeny role resource access action func).2 = .error thrown) ↔
        acl.accepts role resource access = false) := by
  unfold allowOrDeny rulesFor accepts
  by_cases registered : role ∈ acl.rolesNames
  swap
  · simp [registered]
  by_cases known : resource ∈ acl.resourcesNames
  swap
  · simp [registered, known]
  cases access with
  | one name =>
    by_cases refused : name ≠ star ∧ listKey resource name ∉ acl.accessList
    · simp [registered, known, refused]
    · have found : name = star ∨ listKey resource name ∈ acl.accessList := by
        by_contra neither
        exact refused (not_or.mp neither)
      simp [registered, known, refused, found, Access.names, Rule.enter, Rule.key]
  | many names =>
    cases missing : names.find? fun name => listKey resource name ∉ acl.accessList with
    | some name =>
      have mem := List.mem_of_find?_eq_some missing
      have absent := List.find?_some missing
      have refused : (names.all fun name => decide (listKey resource name ∈ acl.accessList)) =
          false := by
        refine List.all_eq_false.mpr ⟨name, mem, ?_⟩
        simpa using absent
      simp only [registered, known, not_true_eq_false, if_false, missing, refused, Bool.and_false,
        Bool.false_eq_true, List.foldl_nil, iff_true]
      exact ⟨trivial, _, rfl⟩
    | none =>
      have found : (names.all fun name => decide (listKey resource name ∈ acl.accessList)) =
          true := by
        refine List.all_eq_true.mpr fun name mem => ?_
        simpa using List.find?_eq_none.mp missing name mem
      simp only [registered, known, not_true_eq_false, if_false, missing, found, decide_true,
        Bool.and_true, if_true, Access.names, List.foldl_map, Rule.enter, Rule.key]
      simp

theorem accepts_congr {acl : Memory F} {role role' : Name} (registered : role ∈ acl.rolesNames)
    (registered' : role' ∈ acl.rolesNames) (resource : Name) (access : Access) :
    acl.accepts role resource access = acl.accepts role' resource access := by
  simp [accepts, registered, registered']

theorem allowOrDenyEach_eq (resource : Name) (access : Access) (action : Action)
    (func : Option (Callback F)) {roles : List Name} {acl : Memory F}
    (registered : ∀ role ∈ roles, role ∈ acl.rolesNames) :
    (allowOrDenyEach resource access action func roles acl).1 =
      (roles.flatMap (acl.rulesFor resource access action func)).foldl Rule.enter acl := by
  induction roles generalizing acl with
  | nil => rfl
  | cons role roles ih =>
    obtain ⟨state, refusal⟩ := allowOrDeny_spec acl role resource access action func
    have here := registered role (.head _)
    cases result : acl.allowOrDeny role resource access action func with
    | mk acl' end' =>
    rw [result] at state refusal
    cases end' with
    | error thrown =>
      have refused : acl.accepts role resource access = false := refusal.mp ⟨thrown, rfl⟩
      have none_set : ∀ other ∈ role :: roles,
          acl.rulesFor resource access action func other = [] := by
        intro other mem
        have refused' := (accepts_congr (registered other mem) here resource access).trans refused
        simp [rulesFor, refused']
      have nothing : (role :: roles).flatMap (acl.rulesFor resource access action func) = [] :=
        List.flatMap_eq_nil_iff.mpr none_set
      have same : acl' = acl := by simpa [none_set role (.head _)] using state
      simp [allowOrDenyEach, result, nothing, same]
    | ok done =>
      have state : acl' = (acl.rulesFor resource access action func role).foldl Rule.enter acl :=
        state
      obtain ⟨sameRoles, sameResources, sameAccesses⟩ :=
        registers_foldl_enter (acl.rulesFor resource access action func role) acl
      rw [← state] at sameRoles sameResources sameAccesses
      have sameRules : acl'.rulesFor resource access action func =
          acl.rulesFor resource access action func := by
        funext other
        simp only [rulesFor, accepts_of_registers sameRoles sameResources sameAccesses]
      have rest := @ih acl' fun other mem => by
        rw [sameRoles]
        exact registered other (.tail _ mem)
      simp only [allowOrDenyEach, result]
      rw [rest, sameRules, List.flatMap_cons, List.foldl_append, ← state]

theorem set_eq (acl : Memory F) (role resource : Name) (access : Access) (action : Action)
    (func : Option (Callback F)) : (acl.set role resource access action func).1 =
      (acl.rules role resource access action func).foldl Rule.enter acl := by
  unfold set rules
  by_cases wild : role = star
  · simp only [wild, ne_eq, not_true_eq_false, if_false, if_true]
    exact allowOrDenyEach_eq resource access action func fun _ mem => mem
  · simp only [ne_eq, wild, not_false_eq_true, if_true, if_false]
    exact (allowOrDeny_spec acl role resource access action func).1

theorem mem_rulesFor {acl : Memory F} {resource : Name} {access : Access} {action : Action}
    {func : Option (Callback F)} {role : Name} {rule : Rule F}
    (mem : rule ∈ acl.rulesFor resource access action func role) :
    role ∈ acl.rolesNames ∧ rule.role = role ∧ rule.resource = resource := by
  unfold rulesFor at mem
  split at mem
  · rename_i accepted
    obtain ⟨name, _, rfl⟩ := List.mem_map.mp mem
    simp [accepts] at accepted
    exact ⟨accepted.1.1, rfl, rfl⟩
  · simp at mem

theorem mem_rules {acl : Memory F} {role resource : Name} {access : Access} {action : Action}
    {func : Option (Callback F)} {rule : Rule F}
    (mem : rule ∈ acl.rules role resource access action func) :
    rule.role ∈ acl.rolesNames ∧ rule.resource = resource := by
  unfold rules at mem
  split at mem
  · obtain ⟨other, _, mem⟩ := List.mem_flatMap.mp mem
    obtain ⟨registered, rfl, sameResource⟩ := mem_rulesFor mem
    exact ⟨registered, sameResource⟩
  · obtain ⟨registered, rfl, sameResource⟩ := mem_rulesFor mem
    exact ⟨registered, sameResource⟩

end Memory

def Call.Plain : Call F → Prop
  | .addRole role accessInherits => Acl.Plain role ∧ ∀ inherits ∈ accessInherits, Acl.Plain inherits
  | .addInherit roleName roleToInherit => Acl.Plain roleName ∧ Acl.Plain roleToInherit
  | .addResource resource _ => Acl.Plain resource
  | .allow roleName resourceName _ _ | .deny roleName resourceName _ _ =>
    Acl.Plain roleName ∧ Acl.Plain resourceName

variable {ledger : List (Rule F)}

theorem Kept.set {acl : Memory F} (kept : Kept acl ledger)
    {resource : Name} (plain : Plain resource) (role : Name) (access : Access) (action : Action)
    (func : Option (Callback F)) : Kept (acl.set role resource access action func).1
      ((acl.rules role resource access action func).reverse ++ ledger) := by
  rw [Memory.set_eq]
  refine kept.enterAll fun rule mem => ?_
  obtain ⟨registered, rfl⟩ := Memory.mem_rules mem
  exact ⟨kept.roles _ registered, plain⟩

theorem Kept.inheritStep {acl acl' : Memory F} (kept : Kept acl ledger)
    (step : acl.InheritStep acl') : Kept acl' ledger := by
  obtain ⟨roleName, roleInheritName, registered, rfl⟩ := step
  refine ⟨kept.access, kept.func, kept.roles, fun role inherited mem => ?_, kept.rules⟩
  by_cases same : role = roleName
  · subst same
    simp only [Memory.inheritFrom, Function.update_self, List.mem_append,
      List.mem_singleton] at mem
    rcases mem with mem | rfl
    · exact kept.inherits _ _ mem
    · exact registered
  · simp only [Memory.inheritFrom, Function.update_of_ne same] at mem
    exact kept.inherits _ _ mem

theorem Kept.inheritSteps {acl acl' : Memory F} (kept : Kept acl ledger)
    (steps : Relation.ReflTransGen Memory.InheritStep acl acl') : Kept acl' ledger := by
  induction steps with
  | refl => exact kept
  | tail _ step ih => exact ih.inheritStep step

theorem Kept.addRole {acl : Memory F} (kept : Kept acl ledger)
    {role : Name} (plain : Plain role) :
    Kept { acl with rolesNames := acl.rolesNames ++ [role] } ledger where
  access := kept.access
  func := kept.func
  roles := List.forall_mem_append.mpr ⟨kept.roles, List.forall_mem_singleton.mpr plain⟩
  inherits other inherited mem := List.mem_append_left _ (kept.inherits other inherited mem)
  rules := kept.rules

theorem Kept.addResource {acl : Memory F} (kept : Kept acl ledger)
    (resource : Name) (accessList : Access) :
    Kept (acl.addResource resource accessList).1 ledger := by
  unfold Memory.addResource Memory.addResourceAccess
  split
  · exact kept
  · split
    · exact ⟨kept.access, kept.func, kept.roles, kept.inherits, kept.rules⟩
    · split <;> exact ⟨kept.access, kept.func, kept.roles, kept.inherits, kept.rules⟩

theorem Kept.perform {looseEq : Name → Name → Bool} {fuel : Nat} {acl acl' : Memory F}
     (kept : Kept acl ledger) {call : Call F} (plain : call.Plain)
    (returned : call.perform looseEq fuel acl = some acl') :
    Kept acl' ((call.rules acl).reverse ++ ledger) := by
  cases call with
  | addRole role accessInherits =>
    obtain ⟨outcome, added, rfl⟩ := Option.map_eq_some_iff.mp returned
    unfold Memory.addRole at added
    split at added
    · cases added
      exact kept
    split at added
    · cases added
      exact kept
    cases accessInherits with
    | none =>
      cases added
      exact kept.addRole plain.1
    | some inherits => exact (kept.addRole plain.1).inheritSteps (Memory.addInherit_steps added)
  | addInherit roleName roleToInherit =>
    obtain ⟨outcome, added, rfl⟩ := Option.map_eq_some_iff.mp returned
    exact kept.inheritSteps (Memory.addInherit_steps added)
  | addResource resource accessList =>
    cases returned
    exact kept.addResource resource accessList
  | allow role resource access func =>
    cases returned
    exact kept.set plain.2 role access .allow func
  | deny role resource access func =>
    cases returned
    exact kept.set plain.2 role access .deny func

theorem Kept.run {looseEq : Name → Name → Bool} {fuel : Nat} {calls : List (Call F)}
    {acl acl' : Memory F} {ledger' : List (Rule F)} (kept : Kept acl ledger)
    (plain : ∀ call ∈ calls, call.Plain)
    (ran : run looseEq fuel acl ledger calls = some (acl', ledger')) : Kept acl' ledger' := by
  induction calls generalizing acl ledger with
  | nil =>
    cases ran
    exact kept
  | cons call calls ih =>
    rw [Acl.run] at ran
    cases returned : call.perform looseEq fuel acl with
    | none => simp [returned] at ran
    | some next =>
      simp only [returned] at ran
      exact ih (kept.perform (plain call (.head _)) returned)
        (fun other mem => plain other (.tail _ mem)) ran

/-- The object before the first call, with the default actions that were chosen. -/
def start (defaultAccess noArgumentsDefaultAction : Int) : Memory F :=
  { Memory.new with
    defaultAccess := defaultAccess
    noArgumentsDefaultAction := noArgumentsDefaultAction }

theorem kept_start (defaultAccess noArgumentsDefaultAction : Int) :
    Kept (start defaultAccess noArgumentsDefaultAction : Memory F) [] where
  access := fun _ => rfl
  func := fun _ => rfl
  roles := by simp [start, Memory.new]
  inherits := by simp [start, Memory.new]
  rules := by simp

/-- The callback that was given to the rule last. -/
def given (ledger : List (Rule F)) (role resource access : Name) : Option (Callback F) :=
  (ledger.filter fun rule => rule.IsFor role resource access).findSome? (·.callback)

theorem IsFor_of_latest {role resource access : Name} {rule : Rule F}
    (last : latest ledger role resource access = some rule) : rule.IsFor role resource access := by
  simpa using List.find?_some last

theorem given_of_latest_none {role resource access : Name}
    (unset : latest ledger role resource access = none) :
    given ledger role resource access = none := by
  have never := List.find?_eq_none.mp unset
  have empty : (ledger.filter fun rule => rule.IsFor role resource access) = [] :=
    List.filter_eq_nil_iff.mpr never
  simp [given, empty]

theorem given_eq_iff {role resource access : Name} {rule : Rule F}
    (last : latest ledger role resource access = some rule) :
    given ledger role resource access = rule.callback ↔ Renewed ledger rule := by
  obtain ⟨rfl, rfl, rfl⟩ := IsFor_of_latest last
  cases holds : rule.callback with
  | some callback =>
    obtain ⟨_, before, behind, rfl, unset⟩ := List.find?_eq_some_iff_append.mp last
    have empty : (before.filter fun other =>
        other.IsFor rule.role rule.resource rule.access) = [] :=
      List.filter_eq_nil_iff.mpr fun other mem => by simpa using unset other mem
    have itself : rule.IsFor rule.role rule.resource rule.access := ⟨rfl, rfl, rfl⟩
    simp [given, Renewed, empty, itself, holds]
  | none =>
    simp only [given, Renewed, holds, List.findSome?_eq_none_iff, List.mem_filter,
      decide_eq_true_eq, and_imp, true_implies]

namespace Kept

variable {acl : Memory F} {ledger : List (Rule F)} {resource : Name}

theorem filter_key (kept : Kept acl ledger) {role : Name} (plainRole : Plain role)
    (plainResource : Plain resource) (access : Name) :
    (ledger.filter (·.key = Memory.accessKey role resource access)) =
      ledger.filter fun rule => rule.IsFor role resource access :=
  List.filter_congr fun rule mem => by
    have ⟨ruleRole, ruleResource⟩ := kept.rules rule mem
    simp only [Rule.key_eq_iff plainRole plainResource ruleRole ruleResource]

theorem access_key (kept : Kept acl ledger) {role : Name} (plainRole : Plain role)
    (plainResource : Plain resource) (access : Name) :
    acl.access (Memory.accessKey role resource access) =
      (latest ledger role resource access).map (·.action) := by
  rw [kept.access, latest, ← List.head?_filter, ← List.head?_filter,
    kept.filter_key plainRole plainResource]

theorem func_key (kept : Kept acl ledger) {role : Name} (plainRole : Plain role)
    (plainResource : Plain resource) (access : Name) :
    acl.func (Memory.accessKey role resource access) = given ledger role resource access := by
  rw [kept.func, kept.filter_key plainRole plainResource, given]

theorem inheritedExact_eq (kept : Kept acl ledger)
    (plainResource : Plain resource) (access : Name) (funcAccess : Option (Callback F))
    {roles : List Name} (plain : ∀ role ∈ roles, Plain role) :
    acl.inheritedExact resource access roles funcAccess =
      ((inheritedRule ledger roles resource access).map (·.action), match roles.getLast? with
        | none => funcAccess
        | some role => given ledger role resource access) := by
  induction roles using List.reverseRecOn with
  | nil => rfl
  | append_singleton roles role ih =>
    have here := plain role (by simp)
    have before := ih fun other mem => plain other (by simp [mem])
    unfold Memory.inheritedExact inheritedRule at before ⊢
    rw [List.foldl_append, before]
    simp only [List.foldl_cons, List.foldl_nil, kept.access_key here plainResource,
      kept.func_key here plainResource, List.reverse_append, List.reverse_cons, List.reverse_nil,
      List.nil_append, List.singleton_append, List.findSome?_cons, List.getLast?_append,
      List.getLast?_singleton, some_or]
    cases latest ledger role resource access <;> simp

theorem inheritedFirst_eq (kept : Kept acl ledger)
    (plainResource : Plain resource) (access : Name) {roles : List Name}
    (plain : ∀ role ∈ roles, Plain role) (funcAccess : Option (Callback F)) :
    match roles.findSome? fun role => latest ledger role resource access with
    | none => (acl.inheritedFirst resource access roles funcAccess).1 = none
    | some rule => acl.inheritedFirst resource access roles funcAccess =
        (some rule.action, given ledger rule.role resource access) := by
  induction roles generalizing funcAccess with
  | nil => rfl
  | cons role roles ih =>
    have here := plain role (.head _)
    have rest := ih (fun other mem => plain other (.tail _ mem))
      (acl.func (Memory.accessKey role resource access))
    have action := kept.access_key here plainResource access
    rw [List.findSome?_cons]
    cases last : latest ledger role resource access with
    | some rule =>
      have sameRole := (IsFor_of_latest last).1
      simp only [last, map_some] at action
      simp only [Memory.inheritedFirst, action, kept.func_key here plainResource, sameRole]
    | none =>
      simp only [last, map_none] at action
      simp only [Memory.inheritedFirst, action]
      exact rest

theorem wildcardAccess_eq (kept : Kept acl ledger) {role : Name} (plainRole : Plain role)
    (plainResource : Plain resource) (funcAccess : Option (Callback F)) :
    match wildcardRule ledger (acl.roleInherits role) role resource with
    | none => (acl.wildcardAccess role resource (none, funcAccess)).1 = none
    | some rule => acl.wildcardAccess role resource (none, funcAccess) =
        (some rule.action, given ledger rule.role resource star) := by
  have action := kept.access_key plainRole plainResource star
  unfold wildcardRule
  cases last : latest ledger role resource star with
  | some rule =>
    have sameRole := (IsFor_of_latest last).1
    simp only [last, map_some] at action
    simp only [some_or, Memory.wildcardAccess, action,
      kept.func_key plainRole plainResource, sameRole]
  | none =>
    simp only [last, map_none] at action
    simp only [Option.none_or, Memory.wildcardAccess, action]
    exact kept.inheritedFirst_eq plainResource star
      (fun inherited mem => kept.roles _ (kept.inherits _ _ mem)) funcAccess

end Kept

theorem plain_star : Plain star := by
  unfold Plain star bang
  decide

theorem latest_of_wildcardRule {ledger : List (Rule F)} {inheritedRoles : List Name}
    {role resource : Name} {rule : Rule F}
    (found : wildcardRule ledger inheritedRoles role resource = some rule) :
    rule.resource = resource ∧ rule.access = star ∧
      latest ledger rule.role resource star = some rule := by
  have from_latest : ∀ other, latest ledger other resource star = some rule →
      rule.resource = resource ∧ rule.access = star ∧
        latest ledger rule.role resource star = some rule := by
    intro other last
    obtain ⟨rfl, sameResource, sameAccess⟩ := IsFor_of_latest last
    exact ⟨sameResource, sameAccess, last⟩
  rcases Option.or_eq_some_iff.mp found with last | ⟨_, inherited⟩
  · exact from_latest role last
  · obtain ⟨other, _, last⟩ := List.exists_of_findSome?_eq_some inherited
    exact from_latest other last

theorem latest_of_inheritedRule {ledger : List (Rule F)} {inheritedRoles : List Name}
    {resource access : Name} {rule : Rule F}
    (found : inheritedRule ledger inheritedRoles resource access = some rule) :
    latest ledger rule.role resource access = some rule ∧
      ∃ last, inheritedRoles.getLast? = some last ∧
        (last = rule.role ∨ latest ledger last resource access = none) := by
  obtain ⟨role, mem, last⟩ := List.exists_of_findSome?_eq_some found
  obtain ⟨rfl, -, -⟩ := IsFor_of_latest last
  refine ⟨last, ?_⟩
  induction inheritedRoles using List.reverseRecOn with
  | nil => simp [inheritedRule] at found
  | append_singleton roles final _ =>
    refine ⟨final, by simp, ?_⟩
    cases finalRule : latest ledger final resource access with
    | none => exact .inr rfl
    | some other =>
      have same : other = rule := by simpa [inheritedRule, finalRule] using found
      exact .inl (same ▸ (IsFor_of_latest finalRule).1).symm

theorem Kept.decides_kept {acl : Memory F} {ledger : List (Rule F)} (kept : Kept acl ledger)
    {role resource access : Name} (registered : role ∈ acl.rolesNames)
    (plainResource : Plain resource) : Decides acl ledger role resource access ↔
      CallbackKept ledger (acl.roleInherits role) role resource access := by
  have plainRole := kept.roles role registered
  have inheritedPlain : ∀ inherited ∈ acl.roleInherits role, Plain inherited :=
    fun inherited mem => kept.roles _ (kept.inherits _ _ mem)
  have action := kept.access_key plainRole plainResource access
  -- what `Decides` says when the search has found the action of the deciding rule
  have consulted : ∀ rule callback,
      decidingRule ledger (acl.roleInherits role) role resource access = some rule →
      acl.findAccess role resource access = (some rule.action, callback) →
      (Decides acl ledger role resource access ↔ callback = rule.callback) := by
    intro rule callback decided found
    simp only [Decides, decided, Memory.isAllowed, registered, not_true_eq_false, if_false, found]
    constructor
    · rintro ⟨same, _⟩
      exact (Prod.mk.inj same).2
    · rintro rfl
      exact ⟨rfl, rfl⟩
  cases own : latest ledger role resource access with
  | some rule =>
    have decided :
        decidingRule ledger (acl.roleInherits role) role resource access = some rule := by
      simp [decidingRule, own]
    have found : acl.findAccess role resource access =
        (some rule.action, given ledger role resource access) := by
      simp only [own, map_some] at action
      simp only [Memory.findAccess, action, Memory.wildcardAccess,
        kept.func_key plainRole plainResource]
    rw [consulted rule _ decided found, given_eq_iff own]
    simp [CallbackKept, own, decided]
  | none =>
    simp only [own, map_none] at action
    have exact_eq := kept.inheritedExact_eq plainResource access
      (acl.func (Memory.accessKey role resource access)) inheritedPlain
    cases inherited : inheritedRule ledger (acl.roleInherits role) resource access with
    | some rule =>
      have decided :
          decidingRule ledger (acl.roleInherits role) role resource access = some rule := by
        simp [decidingRule, own, inherited]
      obtain ⟨last, final, isFinal, which⟩ := latest_of_inheritedRule inherited
      simp only [inherited, map_some, isFinal] at exact_eq
      have found : acl.findAccess role resource access =
          (some rule.action, given ledger final resource access) := by
        simp only [Memory.findAccess, action, exact_eq, Memory.wildcardAccess]
      rw [consulted rule _ decided found]
      simp only [CallbackKept, own, inherited, isFinal, Option.some.injEq]
      split
      · rename_i same
        rw [same, given_eq_iff last]
      · rename_i other
        rw [given_of_latest_none (which.resolve_left other)]
        exact eq_comm
    | none =>
      simp only [inherited, map_none] at exact_eq
      have below : ∃ callback, acl.findAccess role resource access =
          acl.wildcardAccess role star (acl.wildcardAccess role resource (none, callback)) := by
        simp only [Memory.findAccess, action, exact_eq]
        exact ⟨_, rfl⟩
      obtain ⟨callback, below⟩ := below
      have first := kept.wildcardAccess_eq plainRole plainResource callback
      cases byResource : wildcardRule ledger (acl.roleInherits role) role resource with
      | some rule =>
        have decided :
            decidingRule ledger (acl.roleInherits role) role resource access = some rule := by
          simp [decidingRule, own, inherited, byResource]
        obtain ⟨-, -, last⟩ := latest_of_wildcardRule byResource
        simp only [byResource] at first
        have found : acl.findAccess role resource access =
            (some rule.action, given ledger rule.role resource star) := by
          rw [below, first, Memory.wildcardAccess]
        rw [consulted rule _ decided found, given_eq_iff last]
        simp [CallbackKept, own, inherited, decided]
      | none =>
        simp only [byResource] at first
        have second := kept.wildcardAccess_eq plainRole plain_star
          (acl.wildcardAccess role resource (none, callback)).2
        have above : acl.wildcardAccess role resource (none, callback) =
            (none, (acl.wildcardAccess role resource (none, callback)).2) :=
          Prod.ext first rfl
        cases everywhere : wildcardRule ledger (acl.roleInherits role) role star with
        | some rule =>
          have decided :
              decidingRule ledger (acl.roleInherits role) role resource access = some rule := by
            simp [decidingRule, own, inherited, byResource, everywhere]
          obtain ⟨-, -, last⟩ := latest_of_wildcardRule everywhere
          simp only [everywhere] at second
          rw [above] at below
          rw [consulted rule _ decided (below.trans second), given_eq_iff last]
          simp [CallbackKept, own, inherited, decided]
        | none =>
          have decided :
              decidingRule ledger (acl.roleInherits role) role resource access = none := by
            simp [decidingRule, own, inherited, byResource, everywhere]
          simp only [everywhere] at second
          have undecided : (acl.findAccess role resource access).1 = none := by
            rw [below, above]
            exact second
          have found : acl.findAccess role resource access =
              (none, (acl.findAccess role resource access).2) := Prod.ext undecided rfl
          have answer : Decides acl ledger role resource access := by
            simp only [Decides, decided, Memory.isAllowed, registered, not_true_eq_false, if_false]
            rw [found]
            rfl
          have kept' : CallbackKept ledger (acl.roleInherits role) role resource access := by
            simp [CallbackKept, own, inherited, decided]
          exact iff_of_true answer kept'

/-- After every run of calls with names without an exclamation mark, a query about a registered
role is decided by the deciding rule and its callback exactly if the callback is kept. -/
theorem decides_iff {looseEq : Name → Name → Bool} {fuel : Nat}
    {defaultAccess noArgumentsDefaultAction : Int} {calls : List (Call F)}
    (plain : ∀ call ∈ calls, call.Plain) {acl : Memory F} {ledger : List (Rule F)}
    (ran : run looseEq fuel (start defaultAccess noArgumentsDefaultAction) [] calls =
      some (acl, ledger)) {role : Name} (registered : role ∈ acl.rolesNames) {resource : Name}
    (plainResource : Plain resource) (access : Name) : Decides acl ledger role resource access ↔
      CallbackKept ledger (acl.roleInherits role) role resource access :=
  ((kept_start _ _).run plain ran).decides_kept registered plainResource

namespace Moderators

/-- `"="`: the comparison of names that are no numbers. -/
def same (left right : Name) : Bool := left == right

def check : Callback Unit := ⟨(), 0, 0⟩

def calls : List (Call Unit) :=
  [.addRole [97] none, .addRole [103] none, .addRole [109] (some [97]), .addInherit [109] [103],
    .addResource [112] (.one [101]), .allow [97] [112] (.one [101]) (some check)]

end Moderators

theorem Moderators.plain : ∀ call ∈ Moderators.calls, call.Plain := by
  simp [Moderators.calls, Call.Plain, Plain, bang]

theorem decides_iff_moderators :
    ∃ acl ledger, run Moderators.same 4 (start 0 0) [] Moderators.calls = some (acl, ledger) ∧
      (Decides acl ledger [97] [112] [101] ↔
        CallbackKept ledger (acl.roleInherits [97]) [97] [112] [101]) :=
  ⟨_, _, rfl, @decides_iff Unit Moderators.same 4 0 0 Moderators.calls Moderators.plain _ _ rfl
    [97] (by decide) [112] (by simp [Plain, bang]) [101]⟩

/-- The callback of the author is dropped for the member, because the guest stands behind the
author: the author is asked for it, and the member is let in. -/
theorem not_decides :
    ∃ acl ledger, run Moderators.same 4 (start 0 0) [] Moderators.calls = some (acl, ledger) ∧
      (∀ call ∈ Moderators.calls, call.Plain) ∧ [109] ∈ acl.rolesNames ∧ Plain [112] ∧
      acl.isAllowed [97] [112] [101] = .call Moderators.check ∧
      acl.isAllowed [109] [112] [101] = .answer true ∧ ¬ Decides acl ledger [109] [112] [101] := by
  refine ⟨_, _, rfl, Moderators.plain, by decide, by simp [Plain, bang], by decide, by decide, ?_⟩
  rintro ⟨found, -⟩
  exact absurd found (by decide)

end PhpExts.Phalcon.Acl
