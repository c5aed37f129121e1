import PhpExts.Phalcon.AclInherit

/-!
# Updates of the access control list

A call that throws leaves the object as it was, `allow` and `deny` set what they accept, and
`dropResourceAccess` takes away exactly the accesses it is given, with two exceptions. A new role
is registered before the role it is to inherit is looked up, and the access that
`dropResourceAccess` takes away for a string is that of a variable that was never assigned
(`right_iff_sound`).
-/

namespace PhpExts.Phalcon.Acl

open Memory (listKey accessKey)

variable {F : Type} {looseEq : Name → Name → Bool} {accessName : Option Name}

/-- The loop of `dropResourceAccess`. -/
def Memory.dropAccesses (acl : Memory F) (resourceName : Name) (names : List Name) : Memory F :=
  { acl with
    accessList := names.foldl
      (fun list name => list.filter (· ≠ listKey resourceName name)) acl.accessList }

/-- `Memory::dropResourceAccess`. For a string the key is made from `accessName`, to which nothing
was assigned: it reads as empty where it is null, and nothing returns where it is a null pointer. -/
def Memory.dropResourceAccess (accessName : Option Name) (acl : Memory F) (resourceName : Name) :
    Access → Option (Memory F)
  | .many names => some (acl.dropAccesses resourceName names)
  | .one _ => accessName.map fun accessName => acl.dropAccesses resourceName [accessName]

inductive Update (F : Type) where
  | call (made : Call F)
  | addResourceAccess (resourceName : Name) (accessList : Access)
  | dropResourceAccess (resourceName : Name) (accessList : Access)

def Outcome.discard {α : Type} (outcome : Outcome F α) : Outcome F Unit :=
  (outcome.1, outcome.2.map fun _ => ())

def Call.outcome (looseEq : Name → Name → Bool) (fuel : Nat) (acl : Memory F) :
    Call F → Option (Outcome F Unit)
  | .addRole role accessInherits =>
    (acl.addRole looseEq fuel role accessInherits).map Outcome.discard
  | .addInherit roleName roleToInherit =>
    (Memory.addInherit looseEq fuel acl roleName roleToInherit).map Outcome.discard
  | .addResource resource accessList => some (acl.addResource resource accessList).discard
  | .allow roleName resourceName access func => some (acl.allow roleName resourceName access func)
  | .deny roleName resourceName access func => some (acl.deny roleName resourceName access func)

theorem Call.perform_eq (fuel : Nat) (acl : Memory F) (call : Call F) :
    call.perform looseEq fuel acl = (call.outcome looseEq fuel acl).map (·.1) := by
  cases call with
  | addRole | addInherit => rw [Call.perform, Call.outcome, Option.map_map]; rfl
  | addResource | allow | deny => rfl

def Update.perform (accessName : Option Name) (looseEq : Name → Name → Bool) (fuel : Nat)
    (acl : Memory F) : Update F → Option (Outcome F Unit)
  | .call made => made.outcome looseEq fuel acl
  | .addResourceAccess resourceName accessList =>
    some (acl.addResourceAccess resourceName accessList).discard
  | .dropResourceAccess resourceName accessList =>
    (acl.dropResourceAccess accessName resourceName accessList).map (·, .ok ())

inductive Updated (accessName : Option Name) (looseEq : Name → Name → Bool) : Memory F → Prop
  | start (defaultAccess noArgumentsDefaultAction : Int) :
      Updated accessName looseEq (start defaultAccess noArgumentsDefaultAction)
  | update {acl : Memory F} {outcome : Outcome F Unit} (update : Update F) (fuel : Nat) :
      Updated accessName looseEq acl → update.perform accessName looseEq fuel acl = some outcome →
        Updated accessName looseEq outcome.1

def Memory.named (acl : Memory F) (roleName : Name) : List Name :=
  if roleName = star then acl.rolesNames else [roleName]

/-- `allow` and `deny` do not throw. -/
def Memory.Accepts (acl : Memory F) (roleName resourceName : Name) (access : Access) : Prop :=
  ∀ func, (acl.allow roleName resourceName access func).2 = .ok () ∧
    (acl.deny roleName resourceName access func).2 = .ok ()

def Memory.Drops (acl acl' : Memory F) (resourceName : Name) (names : List Name) : Prop :=
  ∀ role ∈ acl.rolesNames, ∀ resource access,
    acl'.Accepts role resource access ↔ acl.Accepts role resource access ∧
      ¬ (resource = resourceName ∧ ∃ name ∈ access.names, name ∈ names)

def Memory.Sets (acl : Memory F) (roles : List Name) (resourceName : Name) (access : Access)
    (action : Action) (func : Option (Callback F)) : Prop :=
  ∀ role ∈ roles, ∀ name ∈ access.names,
    acl.access (accessKey role resourceName name) = some action ∧
      ∀ callback, func = some callback →
        acl.func (accessKey role resourceName name) = some callback

structure Update.Right (accessName : Option Name) (looseEq : Name → Name → Bool) (acl : Memory F)
    (update : Update F) : Prop where
  unchanged : ∀ fuel acl' thrown,
    update.perform accessName looseEq fuel acl = some (acl', .error thrown) → acl' = acl
  allows : ∀ roleName resourceName access func acl',
    update = .call (.allow roleName resourceName access func) →
    acl.allow roleName resourceName access func = (acl', .ok ()) →
    acl'.Sets (acl.named roleName) resourceName access .allow func
  denies : ∀ roleName resourceName access func acl',
    update = .call (.deny roleName resourceName access func) →
    acl.deny roleName resourceName access func = (acl', .ok ()) →
    acl'.Sets (acl.named roleName) resourceName access .deny func
  drops : ∀ resourceName accessList, update = .dropResourceAccess resourceName accessList →
    ∃ acl', acl.dropResourceAccess accessName resourceName accessList = some acl' ∧
      acl.Drops acl' resourceName accessList.names

def Memory.Alone (acl : Memory F) (resourceName name : Name) : Prop :=
  ∀ resource ∈ acl.resourcesNames, ∀ access,
    listKey resource access = listKey resourceName name →
    listKey resourceName name ∈ acl.accessList → resource = resourceName

/-- The condition on a call. A new role inherits from a role that is known. What is dropped is not
the wildcard, and it shares its key with no other resource; and for a string either the variable
that was never assigned reads as that string, or the string is no access of the resource, and what
the variable reads as is none of any. -/
def Update.Sound (accessName : Option Name) (acl : Memory F) : Update F → Prop
  | .call (.addRole role (some inherits)) =>
    role = star ∨ role ∈ acl.rolesNames ∨ inherits ∈ acl.rolesNames ++ [role]
  | .dropResourceAccess resourceName (.many names) =>
    acl.rolesNames = [] ∨ (resourceName ∈ acl.resourcesNames → star ∉ names) ∧
      ∀ name ∈ names, acl.Alone resourceName name
  | .dropResourceAccess resourceName (.one name) =>
    ∃ unassigned, accessName = some unassigned ∧
      (acl.rolesNames = [] ∨ (resourceName ∈ acl.resourcesNames → name ≠ star) ∧
        if unassigned = name then acl.Alone resourceName name
        else (resourceName ∈ acl.resourcesNames → listKey resourceName name ∉ acl.accessList) ∧
          ∀ resource ∈ acl.resourcesNames, ∀ access,
            listKey resource access = listKey resourceName unassigned →
            listKey resourceName unassigned ∉ acl.accessList)
  | _ => True

namespace Memory

variable {acl : Memory F}

theorem sets_foldl_enter {rules : List (Rule F)} {action : Action} {func : Option (Callback F)}
    (uniform : ∀ rule ∈ rules, rule.action = action ∧ rule.callback = func) (acl : Memory F)
    (key : Name) (set : (∃ rule ∈ rules, rule.key = key) ∨ acl.access key = some action ∧
      ∀ callback, func = some callback → acl.func key = some callback) :
    (rules.foldl Rule.enter acl).access key = some action ∧ ∀ callback, func = some callback →
        (rules.foldl Rule.enter acl).func key = some callback := by
  induction rules generalizing acl with
  | nil => exact set.resolve_left (by simp)
  | cons rule rules ih =>
    rw [List.foldl_cons]
    obtain ⟨isAction, isFunc⟩ := uniform rule (.head _)
    refine ih (fun other mem => uniform other (.tail _ mem)) (rule.enter acl) ?_
    by_cases same : rule.key = key
    · subst same
      refine .inr ⟨by simp [Rule.enter, setRule, isAction], fun callback given => ?_⟩
      simp [Rule.enter, setRule, isFunc, given]
    · rcases set with ⟨other, mem, isKey⟩ | ⟨access, callbacks⟩
      · rcases List.mem_cons.mp mem with rfl | mem
        · exact absurd isKey same
        · exact .inl ⟨other, mem, isKey⟩
      · refine .inr ⟨?_, fun callback given => ?_⟩
        · simp [Rule.enter, setRule, Function.update_of_ne (Ne.symm same), access]
        · simp [Rule.enter, setRule, isFunc, given, Function.update_of_ne (Ne.symm same),
            callbacks callback given]

theorem allowOrDenyEach_ok_iff (resource : Name) (access : Access) (action : Action)
    (func : Option (Callback F)) {roles : List Name} {acl : Memory F}
    (registered : ∀ role ∈ roles, role ∈ acl.rolesNames) :
    (allowOrDenyEach resource access action func roles acl).2 = .ok () ↔
      ∀ role ∈ roles, acl.accepts role resource access = true := by
  induction roles generalizing acl with
  | nil => simp [allowOrDenyEach]
  | cons role roles ih =>
    obtain ⟨state, refusal⟩ := allowOrDeny_spec acl role resource access action func
    rw [allowOrDenyEach, List.forall_mem_cons]
    cases result : acl.allowOrDeny role resource access action func with
    | mk acl' result' =>
      rw [result] at state refusal
      cases result' with
      | error thrown =>
        have refused : acl.accepts role resource access = false := refusal.mp ⟨thrown, rfl⟩
        simp [refused]
      | ok =>
        have accepted : acl.accepts role resource access = true := by
          rw [← Bool.not_eq_false, ← refusal]
          simp
        obtain ⟨roles', resources, accesses⟩ := registers_foldl_enter
          (acl.rulesFor resource access action func role) acl
        rw [← state] at roles' resources accesses
        have rest := @ih acl' fun other mem => by
          rw [roles']
          exact registered other (.tail _ mem)
        simp only [accepted, true_and, rest,
          accepts_of_registers roles' resources accesses]

theorem set_ok_iff (role resource : Name) (access : Access) (action : Action)
    (func : Option (Callback F)) : (acl.set role resource access action func).2 = .ok () ↔
      ∀ other ∈ acl.named role, acl.accepts other resource access = true := by
  unfold set named
  by_cases wild : role = star
  · simp only [wild, ne_eq, not_true_eq_false, if_false, if_true]
    exact allowOrDenyEach_ok_iff resource access action func fun _ mem => mem
  · simp only [ne_eq, wild, not_false_eq_true, if_true, if_false, List.forall_mem_singleton]
    rw [← Bool.not_eq_false, ← (allowOrDeny_spec acl role resource access action func).2]
    cases (acl.allowOrDeny role resource access action func).2 <;> simp

theorem rules_eq (role resource : Name) (access : Access) (action : Action)
    (func : Option (Callback F)) : acl.rules role resource access action func =
      (acl.named role).flatMap (acl.rulesFor resource access action func) := by
  unfold rules named
  split
  · rfl
  · rw [List.flatMap_singleton]

theorem set_of_error {role resource : Name} {access : Access} {action : Action}
    {func : Option (Callback F)} {acl' : Memory F} {thrown : Exception}
    (result : acl.set role resource access action func = (acl', .error thrown)) : acl' = acl := by
  have state := set_eq acl role resource access action func
  have accepted := @set_ok_iff F acl role resource access action func
  rw [result] at state accepted
  have refused : ¬ ∀ other ∈ acl.named role, acl.accepts other resource access = true := by
    rw [← accepted]
    simp
  have nothing : acl.rules role resource access action func = [] := by
    rw [rules_eq]
    push Not at refused
    obtain ⟨other, mem, refused⟩ := refused
    rw [List.flatMap_eq_nil_iff]
    intro role' mem'
    have same : acl.accepts role' resource access = acl.accepts other resource access := by
      unfold named at mem mem'
      split at mem
      case isTrue wild =>
        rw [if_pos wild] at mem'
        exact accepts_congr mem' mem resource access
      case isFalse plain =>
        rw [if_neg plain] at mem'
        rw [List.mem_singleton.mp mem, List.mem_singleton.mp mem']
    rw [rulesFor, if_neg (same ▸ refused)]
  rw [nothing] at state
  exact state

theorem sets_of_ok {role resource : Name} {access : Access} {action : Action}
    {func : Option (Callback F)} {acl' : Memory F}
    (result : acl.set role resource access action func = (acl', .ok ())) :
    acl'.Sets (acl.named role) resource access action func := by
  have state := set_eq acl role resource access action func
  have accepted := @set_ok_iff F acl role resource access action func
  rw [result] at state accepted
  have accepted := accepted.mp rfl
  intro other mem name isName
  rw [show acl' = _ from state]
  refine sets_foldl_enter ?_ acl _ (.inl ⟨⟨other, resource, name, action, func⟩, ?_, rfl⟩)
  · intro rule isRule
    rw [rules_eq] at isRule
    obtain ⟨role', -, isRule⟩ := List.mem_flatMap.mp isRule
    unfold rulesFor at isRule
    split at isRule
    · obtain ⟨name', -, rfl⟩ := List.mem_map.mp isRule
      exact ⟨rfl, rfl⟩
    · cases isRule
  · rw [rules_eq]
    refine List.mem_flatMap.mpr ⟨other, mem, ?_⟩
    rw [rulesFor, if_pos (accepted other mem)]
    exact List.mem_map.mpr ⟨name, isName, rfl⟩

/-! ## Dropped accesses -/

theorem accepts_iff {role : Name} (registered : role ∈ acl.rolesNames) (resource : Name)
    (access : Access) :
    acl.Accepts role resource access ↔ acl.accepts role resource access = true := by
  have every : (∀ other ∈ acl.named role, acl.accepts other resource access = true) ↔
      acl.accepts role resource access = true := by
    unfold named
    split
    · constructor
      · exact fun accepted => accepted role registered
      · intro accepted other mem
        rw [accepts_congr mem registered, accepted]
    · simp
  constructor
  · intro accepted
    exact every.mp ((set_ok_iff role resource access .allow none).mp (accepted none).1)
  · intro accepted func
    exact ⟨(set_ok_iff role resource access .allow func).mpr (every.mpr accepted),
      (set_ok_iff role resource access .deny func).mpr (every.mpr accepted)⟩

theorem mem_dropAccesses (resourceName : Name) (names : List Name) (key : Name) :
    key ∈ (acl.dropAccesses resourceName names).accessList ↔
      key ∈ acl.accessList ∧ ∀ name ∈ names, key ≠ listKey resourceName name := by
  have loop (list : List Name) : key ∈ names.foldl
      (fun list name => list.filter (· ≠ listKey resourceName name)) list ↔
      key ∈ list ∧ ∀ name ∈ names, key ≠ listKey resourceName name := by
    induction names generalizing list with
    | nil => simp
    | cons name names ih =>
      rw [List.foldl_cons, ih]
      simp [and_assoc]
  exact loop acl.accessList

theorem listKey_inj {resource name name' : Name} (same : listKey resource name = listKey resource
    name') : name = name' :=
  (List.cons.inj (List.append_cancel_left same)).2

theorem drops_iff (resourceName : Name) (dropped names : List Name) :
    acl.Drops (acl.dropAccesses resourceName dropped) resourceName names ↔
      acl.rolesNames = [] ∨ (resourceName ∈ acl.resourcesNames → star ∉ names) ∧
        ∀ resource ∈ acl.resourcesNames, ∀ access, listKey resource access ∈ acl.accessList →
          ((∃ name ∈ dropped, listKey resource access = listKey resourceName name) ↔
            resource = resourceName ∧ access ∈ names) := by
  constructor
  · intro drops
    rcases List.eq_nil_or_concat acl.rolesNames with none | ⟨roles, role, some⟩
    · exact .inl none
    refine .inr ⟨fun registered wild => ?_, fun resource registered access listed => ?_⟩
    · have isRole : role ∈ acl.rolesNames := by simp [some]
      have accepted := drops role isRole resourceName (.one star)
      rw [accepts_iff isRole, @accepts_iff F (acl.dropAccesses resourceName dropped) role isRole]
        at accepted
      have after : (acl.dropAccesses resourceName dropped).accepts role resourceName (.one star) =
          true := by
        simp [accepts, dropAccesses, isRole, registered]
      exact (accepted.mp after).2 ⟨rfl, star, List.mem_singleton_self _, wild⟩
    · have isRole : role ∈ acl.rolesNames := by simp [some]
      have accepted := drops role isRole resource (.many [access])
      rw [accepts_iff isRole, @accepts_iff F (acl.dropAccesses resourceName dropped) role isRole]
        at accepted
      have before : acl.accepts role resource (.many [access]) = true := by
        simp [accepts, isRole, registered, listed]
      have after : (acl.dropAccesses resourceName dropped).accepts role resource
          (.many [access]) = true ↔
            ∀ name ∈ dropped, listKey resource access ≠ listKey resourceName name := by
        have same := @mem_dropAccesses F acl resourceName dropped (listKey resource access)
        simp only [accepts, List.all_cons, List.all_nil, Bool.and_true, Bool.and_eq_true,
          decide_eq_true_eq, same, listed, true_and]
        exact and_iff_right ⟨isRole, registered⟩
      rw [after] at accepted
      simp only [before, true_and, Access.names, List.mem_singleton, exists_eq_left] at accepted
      rw [← not_iff_not, ← accepted]
      push Not
      rfl
  · rintro (none | ⟨wild, exact_⟩) role isRole resource access
    · rw [none] at isRole
      cases isRole
    rw [accepts_iff isRole, @accepts_iff F (acl.dropAccesses resourceName dropped) role isRole]
    by_cases registered : resource ∈ acl.resourcesNames
    swap
    · simp [accepts, dropAccesses, registered]
    have stays (name : Name) (listed : listKey resource name ∈ acl.accessList) :
        listKey resource name ∈ (acl.dropAccesses resourceName dropped).accessList ↔
          ¬ (resource = resourceName ∧ name ∈ names) := by
      rw [mem_dropAccesses, ← exact_ resource registered name listed]
      simp [listed]
    have within (name : Name)
        (listed : listKey resource name ∈ (acl.dropAccesses resourceName dropped).accessList) :
        listKey resource name ∈ acl.accessList :=
      ((mem_dropAccesses resourceName dropped _).mp listed).1
    have roles : role ∈ (acl.dropAccesses resourceName dropped).rolesNames := isRole
    have resources : resource ∈ (acl.dropAccesses resourceName dropped).resourcesNames :=
      registered
    cases access with
    | one name =>
      simp only [accepts, isRole, roles, registered, resources, decide_true, Bool.and_self,
        Bool.true_and, decide_eq_true_eq, Access.names, List.mem_singleton, exists_eq_left]
      by_cases isStar : name = star
      · subst isStar
        simp only [true_or, true_and, true_iff, not_and]
        rintro rfl
        exact wild registered
      · simp only [isStar, false_or]
        constructor
        · intro listed
          exact ⟨within name listed, (stays name (within name listed)).mp listed⟩
        · rintro ⟨listed, other⟩
          exact (stays name listed).mpr other
    | many wanted =>
      simp only [accepts, isRole, roles, registered, resources, decide_true, Bool.and_self,
        Bool.true_and, List.all_eq_true, decide_eq_true_eq, Access.names]
      constructor
      · intro listed
        refine ⟨fun name mem => within name (listed name mem), ?_⟩
        rintro ⟨same, name, mem, isDropped⟩
        have here := listed name mem
        exact (stays name (within name here)).mp here ⟨same, isDropped⟩
      · rintro ⟨listed, other⟩ name mem
        refine (stays name (listed name mem)).mpr ?_
        rintro ⟨same, isDropped⟩
        exact other ⟨same, name, mem, isDropped⟩

theorem drops_many_iff (resourceName : Name) (names : List Name) :
    acl.Drops (acl.dropAccesses resourceName names) resourceName names ↔
      acl.rolesNames = [] ∨ (resourceName ∈ acl.resourcesNames → star ∉ names) ∧
        ∀ name ∈ names, acl.Alone resourceName name := by
  rw [drops_iff]
  refine or_congr_right (and_congr_right fun _ => ?_)
  constructor
  · intro drops name mem resource registered access same listed
    exact ((drops resource registered access (same ▸ listed)).mp ⟨name, mem, same⟩).1
  · intro alone resource registered access listed
    constructor
    · rintro ⟨name, mem, same⟩
      obtain rfl := alone name mem resource registered access same (same ▸ listed)
      exact ⟨rfl, listKey_inj same ▸ mem⟩
    · rintro ⟨rfl, mem⟩
      exact ⟨access, mem, rfl⟩

theorem drops_one_iff (resourceName name unassigned : Name) :
    acl.Drops (acl.dropAccesses resourceName [unassigned]) resourceName [name] ↔
      acl.rolesNames = [] ∨ (resourceName ∈ acl.resourcesNames → name ≠ star) ∧
        if unassigned = name then acl.Alone resourceName name
        else (resourceName ∈ acl.resourcesNames → listKey resourceName name ∉ acl.accessList) ∧
          ∀ resource ∈ acl.resourcesNames, ∀ access,
            listKey resource access = listKey resourceName unassigned →
            listKey resourceName unassigned ∉ acl.accessList := by
  by_cases same : unassigned = name
  · subst same
    rw [if_pos rfl, drops_many_iff]
    simp [eq_comm]
  · rw [if_neg same, drops_iff]
    simp only [List.mem_singleton, exists_eq_left]
    refine or_congr_right (and_congr (by simp [eq_comm]) ?_)
    constructor
    · intro drops
      refine ⟨fun registered listed => ?_, fun resource registered access isKey listed => ?_⟩
      · exact same (listKey_inj ((drops resourceName registered name listed).mpr ⟨rfl, rfl⟩)).symm
      · obtain ⟨rfl, rfl⟩ := (drops resource registered access (isKey ▸ listed)).mp isKey
        exact same (listKey_inj isKey).symm
    · rintro ⟨absent, nowhere⟩ resource registered access listed
      constructor
      · intro isKey
        exact absurd (isKey ▸ listed) (nowhere resource registered access isKey)
      · rintro ⟨rfl, rfl⟩
        exact absurd listed (absent registered)

/-! ## Calls that throw -/

theorem addInherit_error (listed : Listed looseEq acl) {fuel : Nat} {role inherited : Name}
    {acl' : Memory F} {thrown : Exception}
    (returned : addInherit looseEq fuel acl role inherited = some (acl', .error thrown)) :
    acl' = acl ∧ (role ∈ acl.rolesNames → inherited ∉ acl.rolesNames) := by
  by_cases registered : role ∈ acl.rolesNames
  · by_cases known : inherited ∈ acl.rolesNames
    · obtain ⟨order, -, -, same⟩ := addInherit_of_returned listed registered known returned
      cases congrArg Prod.snd same
    · refine ⟨?_, fun _ => known⟩
      match fuel with
      | 0 => simp [addInherit] at returned
      | 1 => simp [addInherit, deepInherits, registered] at returned
      | fuel + 2 =>
        rw [addInherit_of_unknown listed registered known] at returned
        exact (congrArg Prod.fst (Option.some.inj returned)).symm
  · refine ⟨?_, fun isRole => absurd isRole registered⟩
    cases fuel with
    | zero => simp [addInherit] at returned
    | succ fuel =>
      simp only [addInherit, registered, not_false_eq_true, if_true, Option.some.injEq]
        at returned
      exact (congrArg Prod.fst returned).symm

end Memory

theorem Outcome.of_discard_error {α : Type} {outcome : Outcome F α} {acl' : Memory F}
    {thrown : Exception} (discarded : outcome.discard = (acl', .error thrown)) :
    outcome = (acl', .error thrown) := by
  obtain ⟨acl, result⟩ := outcome
  cases result with
  | error other => cases discarded; rfl
  | ok => cases discarded

theorem Call.error {acl acl' : Memory F} (listed : Memory.Listed looseEq acl) {made : Call F}
    {fuel : Nat} {thrown : Exception}
    (returned : made.outcome looseEq fuel acl = some (acl', .error thrown)) :
    acl' = acl ∨ ∃ role inherits, made = .addRole role (some inherits) ∧ role ≠ star ∧
      role ∉ acl.rolesNames ∧ inherits ∉ acl.rolesNames ++ [role] := by
  cases made with
  | addRole role accessInherits =>
    obtain ⟨outcome, added, discarded⟩ := Option.map_eq_some_iff.mp returned
    obtain rfl := Outcome.of_discard_error discarded
    unfold Memory.addRole at added
    by_cases reserved : role = star
    · rw [if_pos reserved] at added
      exact .inl (congrArg Prod.fst (Option.some.inj added)).symm
    by_cases present : role ∈ acl.rolesNames
    · rw [if_neg reserved, if_pos present] at added
      cases added
    rw [if_neg reserved, if_neg present] at added
    cases accessInherits with
    | none => cases added
    | some inherits =>
      have unknown := (Memory.addInherit_error ((Grown.addRole acl role).listed listed) added).2
        (List.mem_append_right _ (List.mem_singleton_self _))
      exact .inr ⟨role, inherits, rfl, reserved, present, unknown⟩
  | addInherit role inherits =>
    obtain ⟨outcome, added, discarded⟩ := Option.map_eq_some_iff.mp returned
    obtain rfl := Outcome.of_discard_error discarded
    exact .inl (Memory.addInherit_error listed added).1
  | addResource resource accessList =>
    have added := Outcome.of_discard_error (Option.some.inj returned)
    by_cases reserved : resource = star
    · rw [Memory.addResource, if_pos reserved] at added
      exact .inl (congrArg Prod.fst added).symm
    · by_cases registered : resource ∈ acl.resourcesNames
      · simp [Memory.addResource, Memory.addResourceAccess, reserved, registered] at added
      · simp [Memory.addResource, Memory.addResourceAccess, reserved, registered] at added
  | allow role resource access func => exact .inl (Memory.set_of_error (Option.some.inj returned))
  | deny role resource access func => exact .inl (Memory.set_of_error (Option.some.inj returned))

theorem addRole_of_unknown {acl : Memory F} (listed : Memory.Listed looseEq acl)
    {role inherits : Name} (new : role ≠ star) (absent : role ∉ acl.rolesNames)
    (unknown : inherits ∉ acl.rolesNames ++ [role]) :
    (Call.addRole role (some inherits) : Call F).outcome looseEq 2 acl =
      some ({ acl with rolesNames := acl.rolesNames ++ [role] },
        .error (.unknownRoleToInherit inherits)) := by
  have added := @Memory.addInherit_of_unknown F looseEq role
    { acl with rolesNames := acl.rolesNames ++ [role] } ((Grown.addRole acl role).listed listed)
    (List.mem_append_right _ (List.mem_singleton_self _)) inherits unknown 0
  rw [Call.outcome, Memory.addRole, if_neg new, if_neg absent]
  simp only [added, Option.map_some]
  rfl

theorem Updated.listed {acl : Memory F} (updated : Updated accessName looseEq acl) :
    Memory.Listed looseEq acl := by
  induction updated with
  | start => exact listed_start _ _
  | @update acl outcome update fuel _ performed ih =>
    cases update with
    | call made =>
      have state : made.perform looseEq fuel acl = some outcome.1 := by
        rw [Call.perform_eq]
        exact Option.map_eq_some_iff.mpr ⟨outcome, performed, rfl⟩
      exact (Call.performed ih state).listed ih
    | addResourceAccess resourceName accessList =>
      cases performed
      have grown : Grown acl (acl.addResourceAccess resourceName accessList).1 := by
        unfold Memory.addResourceAccess
        split
        · exact ⟨fun _ mem => mem, rfl⟩
        · exact ⟨fun _ mem => mem, rfl⟩
      exact grown.listed ih
    | dropResourceAccess resourceName accessList =>
      obtain ⟨acl', dropped, rfl⟩ := Option.map_eq_some_iff.mp performed
      have grown : Grown acl acl' := by
        cases accessList with
        | many names =>
          cases dropped
          exact ⟨fun _ mem => mem, rfl⟩
        | one name =>
          obtain ⟨unassigned, -, rfl⟩ := Option.map_eq_some_iff.mp dropped
          exact ⟨fun _ mem => mem, rfl⟩
      exact grown.listed ih

theorem Update.error {acl acl' : Memory F} (listed : Memory.Listed looseEq acl)
    {update : Update F} {fuel : Nat} {thrown : Exception}
    (returned : update.perform accessName looseEq fuel acl = some (acl', .error thrown)) :
    acl' = acl ∨ ∃ role inherits, update = .call (.addRole role (some inherits)) ∧ role ≠ star ∧
      role ∉ acl.rolesNames ∧ inherits ∉ acl.rolesNames ++ [role] := by
  cases update with
  | call made =>
    rcases Call.error listed returned with same | ⟨role, inherits, rfl, new⟩
    · exact .inl same
    · exact .inr ⟨role, inherits, rfl, new⟩
  | addResourceAccess resourceName accessList =>
    have added := Outcome.of_discard_error (Option.some.inj returned)
    unfold Memory.addResourceAccess at added
    split at added
    · exact .inl (congrArg Prod.fst added).symm
    · cases congrArg Prod.snd added
  | dropResourceAccess resourceName accessList =>
    obtain ⟨_, -, same⟩ := Option.map_eq_some_iff.mp returned
    cases congrArg Prod.snd same

/-- **Every update is all or nothing exactly where it meets the condition.** -/
theorem right_iff_sound {acl : Memory F} (updated : Updated accessName looseEq acl)
    (update : Update F) : update.Right accessName looseEq acl ↔ update.Sound accessName acl := by
  have listed := updated.listed
  constructor
  · intro right
    match update with
    | .call (.addRole role (some inherits)) =>
      by_contra unsound
      obtain ⟨new, absent, unknown⟩ : role ≠ star ∧ role ∉ acl.rolesNames ∧
          inherits ∉ acl.rolesNames ++ [role] := by
        simpa only [Update.Sound, not_or] using unsound
      have same := right.unchanged 2 _ _ (addRole_of_unknown listed new absent unknown)
      have roles := congrArg (fun acl : Memory F => acl.rolesNames.length) same
      simp at roles
    | .dropResourceAccess resourceName (.many names) =>
      obtain ⟨acl', dropped, drops⟩ := right.drops resourceName (.many names) rfl
      cases dropped
      exact (Memory.drops_many_iff resourceName names).mp drops
    | .dropResourceAccess resourceName (.one name) =>
      obtain ⟨acl', dropped, drops⟩ := right.drops resourceName (.one name) rfl
      obtain ⟨unassigned, reads, rfl⟩ := Option.map_eq_some_iff.mp dropped
      exact ⟨unassigned, reads, (Memory.drops_one_iff resourceName name unassigned).mp drops⟩
    | .call (.addRole _ none) | .call (.addInherit ..) | .call (.addResource ..)
    | .call (.allow ..) | .call (.deny ..) | .addResourceAccess .. => trivial
  · intro sound
    refine ⟨?_, ?_, ?_, ?_⟩
    · intro fuel acl' thrown returned
      rcases Update.error listed returned with same | ⟨role, inherits, rfl, new, absent, unknown⟩
      · exact same
      · rcases sound with reserved | present | known
        · exact absurd reserved new
        · exact absurd present absent
        · exact absurd known unknown
    · rintro roleName resourceName access func acl' - result
      exact Memory.sets_of_ok result
    · rintro roleName resourceName access func acl' - result
      exact Memory.sets_of_ok result
    · rintro resourceName accessList rfl
      cases accessList with
      | many names => exact ⟨_, rfl, (Memory.drops_many_iff resourceName names).mpr sound⟩
      | one name =>
        obtain ⟨unassigned, reads, drops⟩ := sound
        refine ⟨acl.dropAccesses resourceName [unassigned], ?_,
          (Memory.drops_one_iff resourceName name unassigned).mpr drops⟩
        rw [Memory.dropResourceAccess, reads, Option.map_some]

theorem Staff.updated : Updated (some []) Staff.same
    ({ (start 0 0 : Memory Unit) with
      rolesNames := [Staff.guest]
      resourcesNames := [star, Staff.editor]
      accessList := [star ++ bang :: star, Memory.listKey Staff.editor Staff.admin] }) := by
  have first : Updated (some []) Staff.same
      ({ (start 0 0 : Memory Unit) with rolesNames := [Staff.guest] }) :=
    .update (.call (.addRole Staff.guest none)) 0 (.start 0 0) rfl
  exact .update (.call (.addResource Staff.editor (.one Staff.admin))) 0 first rfl

theorem right_iff_sound_staff :
    (Update.dropResourceAccess Staff.editor (.many [Staff.admin]) : Update Unit).Right (some [])
      Staff.same { (start 0 0 : Memory Unit) with
        rolesNames := [Staff.guest]
        resourcesNames := [star, Staff.editor]
        accessList := [star ++ bang :: star, Memory.listKey Staff.editor Staff.admin] } := by
  refine (right_iff_sound Staff.updated _).mpr (.inr ⟨fun _ => by decide, ?_⟩)
  intro name mem resource registered access same _
  obtain rfl := List.mem_singleton.mp mem
  rcases List.mem_cons.mp registered with rfl | registered
  · cases (List.cons.inj same).1
  · exact List.mem_singleton.mp registered

/-- The admin is registered though the editor it was to inherit from is not known. -/
theorem not_right_unknown : Updated (some []) Staff.same (start 0 0 : Memory Unit) ∧
    ¬ (Update.call (.addRole Staff.admin (some Staff.editor)) : Update Unit).Right (some [])
      Staff.same (start 0 0) := by
  refine ⟨.start 0 0, fun right => ?_⟩
  have same := right.unchanged 2 _ _ rfl
  have roles := congrArg (fun acl : Memory Unit => acl.rolesNames) same
  cases roles

end PhpExts.Phalcon.Acl
