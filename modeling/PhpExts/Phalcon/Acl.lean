import Mathlib

/-!
# `Phalcon\Acl\Adapter\Memory`

The rules of an access control list stand in two arrays, one of the actions and one of the
callbacks, under the names of role, resource and access joined with `!`. The roles a role
inherits from are flattened into one list when the inheritance is declared.
-/

namespace PhpExts.Phalcon.Acl

abbrev Name := List UInt8

/-- `"*"`. -/
def star : Name := [42]

/-- `"!"`. -/
def bang : UInt8 := 33

def text (string : String) : Name := string.toUTF8.toList

inductive Access where
  | one (name : Name)
  | many (names : List Name)

def Access.names : Access → List Name
  | .one name => [name]
  | .many names => names

/-- `Acl::DENY` and `Acl::ALLOW`. -/
inductive Action where
  | deny
  | allow
  deriving DecidableEq

structure Callback (F : Type) where
  body : F
  parameterNumber : Nat
  numberOfRequiredParameters : Nat
  deriving DecidableEq

/-- `Memory`. A role without an entry in `_roleInherits` has the empty list: an entry is made
together with its first element. -/
structure Memory (F : Type) where
  rolesNames : List Name
  resourcesNames : List Name
  accessList : List Name
  access : Name → Option Action
  func : Name → Option (Callback F)
  roleInherits : Name → List Name
  defaultAccess : Int
  noArgumentsDefaultAction : Int

variable {F : Type}

/-- `Memory::__construct`, with the defaults of the class. -/
def Memory.new : Memory F where
  rolesNames := []
  resourcesNames := [star]
  accessList := [star ++ bang :: star]
  access := fun _ => none
  func := fun _ => none
  roleInherits := fun _ => []
  -- `true`, which equals `Acl::ALLOW`
  defaultAccess := 1
  noArgumentsDefaultAction := 1

inductive Exception where
  | reservedRole
  | reservedResource
  | unknownRole (role : Name)
  | unknownRoleToInherit (role : Name)
  | noSuchRole (role : Name)
  | noSuchResource (resource : Name)
  | noSuchAccess (access resource : Name)
  deriving DecidableEq

def Exception.message : Exception → Name
  | .reservedRole => text "Role name cannot be '*'"
  | .reservedResource => text "Resource name cannot be '*'"
  | .unknownRole role => text "Role '" ++ role ++ text "' does not exist in the role list"
  | .unknownRoleToInherit role =>
    text "Role '" ++ role ++ text "' (to inherit) does not exist in the role list"
  | .noSuchRole role => text "Role '" ++ role ++ text "' does not exist in ACL"
  | .noSuchResource resource => text "Resource '" ++ resource ++ text "' does not exist in ACL"
  | .noSuchAccess access resource =>
    text "Access '" ++ access ++ text "' does not exist in resource '" ++ resource ++ text "'"

abbrev Outcome (F α : Type) := Memory F × Except Exception α

namespace Memory

/-- `_roleInherits[roleName][] = roleInheritName`. -/
def inheritFrom (acl : Memory F) (roleName roleInheritName : Name) : Memory F :=
  { acl with
    roleInherits :=
      Function.update acl.roleInherits roleName (acl.roleInherits roleName ++ [roleInheritName]) }

mutual

/-- `Memory::addInherit`. The names are compared as strings are by `==`; without fuel the
call has not returned. -/
def addInherit (looseEq : Name → Name → Bool) : Nat → Memory F → Name → Name →
    Option (Outcome F Bool)
  | 0, _, _, _ => none
  | fuel + 1, acl, roleName, roleToInherit =>
    if roleName ∉ acl.rolesNames then some (acl, .error (.unknownRole roleName))
    else
      match deepInherits looseEq fuel acl roleName roleToInherit 0 with
      | none => none
      | some (acl, .error thrown) => some (acl, .error thrown)
      | some (acl, .ok ()) =>
        if roleToInherit ∉ acl.rolesNames then
          some (acl, .error (.unknownRoleToInherit roleToInherit))
        else if looseEq roleName roleToInherit then some (acl, .ok false)
        else some (acl.inheritFrom roleName roleToInherit, .ok true)

/-- The loop over the roles that the role to inherit inherits itself. The array is read where
it stands, so an element that is appended meanwhile is visited too. -/
def deepInherits (looseEq : Name → Name → Bool) : Nat → Memory F → Name → Name → Nat →
    Option (Outcome F Unit)
  | 0, _, _, _, _ => none
  | fuel + 1, acl, roleName, roleInheritName, position =>
    match (acl.roleInherits roleInheritName)[position]? with
    | none => some (acl, .ok ())
    | some deepInheritName =>
      match addInherit looseEq fuel acl roleName deepInheritName with
      | none => none
      | some (acl, .error thrown) => some (acl, .error thrown)
      | some (acl, .ok _) =>
        deepInherits looseEq fuel acl roleName roleInheritName (position + 1)

end

def InheritStep (acl acl' : Memory F) : Prop :=
  ∃ roleName roleInheritName, roleInheritName ∈ acl.rolesNames ∧
    acl' = acl.inheritFrom roleName roleInheritName

theorem inherits_steps (looseEq : Name → Name → Bool) (fuel : Nat) :
    (∀ (acl : Memory F) roleName roleToInherit outcome,
      addInherit looseEq fuel acl roleName roleToInherit = some outcome →
        Relation.ReflTransGen InheritStep acl outcome.1) ∧
    (∀ (acl : Memory F) roleName roleInheritName position outcome,
      deepInherits looseEq fuel acl roleName roleInheritName position = some outcome →
        Relation.ReflTransGen InheritStep acl outcome.1) := by
  induction fuel with
  | zero =>
    constructor
    · intro acl roleName roleToInherit outcome returned
      simp [addInherit] at returned
    · intro acl roleName roleInheritName position outcome returned
      simp [deepInherits] at returned
  | succ fuel ih =>
    obtain ⟨ihAdd, ihDeep⟩ := ih
    constructor
    · intro acl roleName roleToInherit outcome returned
      rw [addInherit] at returned
      split at returned
      · cases returned
        exact .refl
      cases looped : deepInherits looseEq fuel acl roleName roleToInherit 0 with
      | none => simp [looped] at returned
      | some result =>
        have before := ihDeep _ _ _ _ _ looped
        obtain ⟨acl', end' | end'⟩ := result
        · simp only [looped] at returned
          cases returned
          exact before
        · simp only [looped] at returned
          split at returned
          · cases returned
            exact before
          · rename_i registered
            split at returned
            · cases returned
              exact before
            · cases returned
              exact before.tail ⟨_, _, not_not.mp registered, rfl⟩
    · intro acl roleName roleInheritName position outcome returned
      rw [deepInherits] at returned
      split at returned
      · cases returned
        exact .refl
      rename_i deepInheritName _
      cases added : addInherit looseEq fuel acl roleName deepInheritName with
      | none => simp [added] at returned
      | some result =>
        have before := ihAdd _ _ _ _ added
        obtain ⟨acl', end' | end'⟩ := result
        · simp only [added] at returned
          cases returned
          exact before
        · simp only [added] at returned
          exact before.trans (ihDeep _ _ _ _ _ returned)

theorem addInherit_steps {looseEq : Name → Name → Bool} {fuel : Nat} {acl : Memory F}
    {roleName roleToInherit : Name} {outcome : Outcome F Bool}
    (returned : addInherit looseEq fuel acl roleName roleToInherit = some outcome) :
    Relation.ReflTransGen InheritStep acl outcome.1 :=
  (inherits_steps looseEq fuel).1 _ _ _ _ returned

def addRole (looseEq : Name → Name → Bool) (fuel : Nat) (acl : Memory F) (role : Name)
    (accessInherits : Option Name) : Option (Outcome F Bool) :=
  -- the constructor of `Role` refuses the wildcard
  if role = star then some (acl, .error .reservedRole)
  else if role ∈ acl.rolesNames then some (acl, .ok false)
  else
    let acl := { acl with rolesNames := acl.rolesNames ++ [role] }
    match accessInherits with
    | some inherits => addInherit looseEq fuel acl role inherits
    | none => some (acl, .ok true)

/-- `resourceName . "!" . accessName`. -/
def listKey (resourceName accessName : Name) : Name := resourceName ++ bang :: accessName

def addResourceAccess (acl : Memory F) (resourceName : Name) (accessList : Access) :
    Outcome F Bool :=
  if resourceName ∉ acl.resourcesNames then (acl, .error (.noSuchResource resourceName))
  else
    ({ acl with
      accessList := accessList.names.foldl (fun list name =>
        if listKey resourceName name ∈ list then list
        else list ++ [listKey resourceName name]) acl.accessList }, .ok true)

def addResource (acl : Memory F) (resourceName : Name) (accessList : Access) : Outcome F Bool :=
  -- the constructor of `Resource` refuses the wildcard
  if resourceName = star then (acl, .error .reservedResource)
  else if resourceName ∈ acl.resourcesNames then
    addResourceAccess acl resourceName accessList
  else
    addResourceAccess { acl with resourcesNames := acl.resourcesNames ++ [resourceName] }
      resourceName accessList

theorem addResource_roles (acl : Memory F) (resourceName : Name) (accessList : Access) :
    (acl.addResource resourceName accessList).1.rolesNames = acl.rolesNames ∧
      (acl.addResource resourceName accessList).1.roleInherits = acl.roleInherits := by
  unfold addResource addResourceAccess
  split
  · exact ⟨rfl, rfl⟩
  · split
    · exact ⟨rfl, rfl⟩
    · split <;> exact ⟨rfl, rfl⟩

/-- `roleName . "!" . resourceName . "!" . accessName`. -/
def accessKey (roleName resourceName accessName : Name) : Name :=
  roleName ++ bang :: (resourceName ++ bang :: accessName)

/-- `_access[accessKey] = action`, and `_func[accessKey] = func` if there is a callback. -/
def setRule (acl : Memory F) (accessKey : Name) (action : Action) (func : Option (Callback F)) :
    Memory F :=
  { acl with
    access := Function.update acl.access accessKey (some action)
    func := match func with
      | none => acl.func
      | some callback => Function.update acl.func accessKey (some callback) }

def allowOrDeny (acl : Memory F) (roleName resourceName : Name) (access : Access)
    (action : Action) (func : Option (Callback F)) : Outcome F Unit :=
  if roleName ∉ acl.rolesNames then (acl, .error (.noSuchRole roleName))
  else if resourceName ∉ acl.resourcesNames then (acl, .error (.noSuchResource resourceName))
  else
    match access with
    | .many names =>
      match names.find? (fun name => listKey resourceName name ∉ acl.accessList) with
      | some name => (acl, .error (.noSuchAccess name resourceName))
      | none =>
        (names.foldl (fun acl name =>
          acl.setRule (accessKey roleName resourceName name) action func) acl, .ok ())
    | .one name =>
      if name ≠ star ∧ listKey resourceName name ∉ acl.accessList then
        (acl, .error (.noSuchAccess name resourceName))
      else (acl.setRule (accessKey roleName resourceName name) action func, .ok ())

/-- The loop of `allow` and `deny` over all roles. -/
def allowOrDenyEach (resourceName : Name) (access : Access) (action : Action)
    (func : Option (Callback F)) : List Name → Memory F → Outcome F Unit
  | [], acl => (acl, .ok ())
  | innerRoleName :: roles, acl =>
    match acl.allowOrDeny innerRoleName resourceName access action func with
    | (acl, .error thrown) => (acl, .error thrown)
    | (acl, .ok ()) => allowOrDenyEach resourceName access action func roles acl

/-- What `allow` and `deny` do with their action. -/
def set (acl : Memory F) (roleName resourceName : Name) (access : Access) (action : Action)
    (func : Option (Callback F)) : Outcome F Unit :=
  if roleName ≠ star then acl.allowOrDeny roleName resourceName access action func
  else allowOrDenyEach resourceName access action func acl.rolesNames acl

/-- `Memory::allow`. -/
def allow (acl : Memory F) (roleName resourceName : Name) (access : Access)
    (func : Option (Callback F)) : Outcome F Unit :=
  acl.set roleName resourceName access .allow func

/-- `Memory::deny`. -/
def deny (acl : Memory F) (roleName resourceName : Name) (access : Access)
    (func : Option (Callback F)) : Outcome F Unit :=
  acl.set roleName resourceName access .deny func

/-- The loop over the inherited roles with the access of the query. It runs to the end of the
list, and takes the callback of every role, one that has no rule too. -/
def inheritedExact (acl : Memory F) (resourceName access : Name) (inheritedRoles : List Name)
    (funcAccess : Option (Callback F)) : Option Action × Option (Callback F) :=
  inheritedRoles.foldl (fun found inheritedRole =>
    ((acl.access (accessKey inheritedRole resourceName access)).or found.1,
      acl.func (accessKey inheritedRole resourceName access))) (none, funcAccess)

def inheritedFirst (acl : Memory F) (resourceName access : Name) : List Name →
    Option (Callback F) → Option Action × Option (Callback F)
  | [], funcAccess => (none, funcAccess)
  | inheritedRole :: roles, _ =>
    let accessKey := accessKey inheritedRole resourceName access
    match acl.access accessKey with
    | some action => (some action, acl.func accessKey)
    | none => inheritedFirst acl resourceName access roles (acl.func accessKey)

def wildcardAccess (acl : Memory F) (roleName resourceName : Name)
    (found : Option Action × Option (Callback F)) : Option Action × Option (Callback F) :=
  match found.1 with
  | some _ => found
  | none =>
    let accessKey := accessKey roleName resourceName star
    match acl.access accessKey with
    | some action => (some action, acl.func accessKey)
    | none => inheritedFirst acl resourceName star (acl.roleInherits roleName) found.2

/-- The part of `Memory::isAllowed` that finds `haveAccess` and `funcAccess`. -/
def findAccess (acl : Memory F) (roleName resourceName access : Name) :
    Option Action × Option (Callback F) :=
  let accessKey := accessKey roleName resourceName access
  let exact := match acl.access accessKey with
    | some action => (some action, acl.func accessKey)
    | none =>
      inheritedExact acl resourceName access (acl.roleInherits roleName) (acl.func accessKey)
  wildcardAccess acl roleName star (wildcardAccess acl roleName resourceName exact)

/-- What a query answers: a value, what the callback returns, or, with a notice, the default
for a callback that lacks its arguments. -/
inductive Verdict (F : Type) where
  | answer (granted : Bool)
  | call (callback : Callback F)
  | noArguments (granted : Bool)
  deriving DecidableEq

/-- The end of `Memory::isAllowed`, without parameters for the callback. -/
def conclude (acl : Memory F) : Option Action × Option (Callback F) → Verdict F
  | (none, _) => .answer (acl.defaultAccess == 1)
  | (some haveAccess, none) => .answer (haveAccess == .allow)
  | (some haveAccess, some funcAccess) =>
    if funcAccess.parameterNumber ≠ 0 ∧ 0 < funcAccess.numberOfRequiredParameters then
      .noArguments (haveAccess == .allow && acl.noArgumentsDefaultAction == 1)
    else if haveAccess = .allow then .call funcAccess
    else .answer false

/-- `Memory::isAllowed`, without an events manager. -/
def isAllowed (acl : Memory F) (roleName resourceName access : Name) : Verdict F :=
  if roleName ∉ acl.rolesNames then .answer (acl.defaultAccess == 1)
  else acl.conclude (acl.findAccess roleName resourceName access)

end Memory

inductive Call (F : Type) where
  | addRole (role : Name) (accessInherits : Option Name)
  | addInherit (roleName roleToInherit : Name)
  | addResource (resource : Name) (accessList : Access)
  | allow (roleName resourceName : Name) (access : Access) (func : Option (Callback F))
  | deny (roleName resourceName : Name) (access : Access) (func : Option (Callback F))

def Call.perform (looseEq : Name → Name → Bool) (fuel : Nat) (acl : Memory F) :
    Call F → Option (Memory F)
  | .addRole role accessInherits =>
    (acl.addRole looseEq fuel role accessInherits).map (·.1)
  | .addInherit roleName roleToInherit =>
    (Memory.addInherit looseEq fuel acl roleName roleToInherit).map (·.1)
  | .addResource resource accessList => some (acl.addResource resource accessList).1
  | .allow roleName resourceName access func =>
    some (acl.allow roleName resourceName access func).1
  | .deny roleName resourceName access func =>
    some (acl.deny roleName resourceName access func).1

end PhpExts.Phalcon.Acl
