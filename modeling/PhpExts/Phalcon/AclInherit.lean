import PhpExts.Phalcon.AclDecision
import PhpExts.Library.PostOrder
import Mathlib

/-!
# Inheritance of roles

`addInherit` walks over the roles that the inherited role inherits itself and appends each of
them to the list of the role. It returns exactly if the walk ends and comes to the role itself
only while the list of the role is empty (`addInherit_returns_iff`).

The list of a role is what can be reached by the declared inheritances as long as each of them
is declared after those above it (`returns_and_complete`).
-/

namespace PhpExts.Phalcon.Acl

open PhpExts.Library (Successor Visits not_transGen_of_acc transGen_addEdge)

variable {F : Type} {looseEq : Name → Name → Bool}

local instance lawfulRole : LawfulBEq Name := inferInstance

/-- What a walk in this order appends to the list of the role. -/
def entered (looseEq : Name → Name → Bool) (role : Name) (order : List Name) : List Name :=
  order.filter fun inherited => !looseEq role inherited

@[simp] theorem entered_nil (role : Name) : entered looseEq role [] = [] := rfl

@[simp] theorem entered_append (role : Name) (order order' : List Name) :
    entered looseEq role (order ++ order') =
      entered looseEq role order ++ entered looseEq role order' :=
  List.filter_append ..

def EmptyWhenMet (looseEq : Name → Name → Bool) (role : Name) (list order : List Name) : Prop :=
  ∀ before behind, order = before ++ role :: behind → list ++ entered looseEq role before = []

namespace EmptyWhenMet

variable {role : Name} {list order order' : List Name}

theorem left (met : EmptyWhenMet looseEq role list (order ++ order')) :
    EmptyWhenMet looseEq role list order := by
  rintro before behind rfl
  exact met before (behind ++ order') (by simp)

theorem right (met : EmptyWhenMet looseEq role list (order ++ order')) :
    EmptyWhenMet looseEq role (list ++ entered looseEq role order) order' := by
  rintro before behind rfl
  simpa using met (order ++ before) behind (by simp)

theorem append (met : EmptyWhenMet looseEq role list order)
    (met' : EmptyWhenMet looseEq role (list ++ entered looseEq role order) order') :
    EmptyWhenMet looseEq role list (order ++ order') := by
  intro before behind same
  rcases List.append_eq_append_iff.mp same with ⟨middle, rfl, rest⟩ | ⟨middle, rest, tail⟩
  · simpa using met' middle behind rest
  · cases middle with
    | nil =>
      have first : order' = [] ++ role :: behind := tail.symm
      have whole := met' [] behind first
      simpa [rest] using whole
    | cons head middle =>
      obtain ⟨rfl, -⟩ := List.cons.inj tail
      exact met before middle rest

end EmptyWhenMet

namespace Memory

def inheritAll (acl : Memory F) (role : Name) (roles : List Name) : Memory F :=
  { acl with
    roleInherits := Function.update acl.roleInherits role (acl.roleInherits role ++ roles) }

@[simp] theorem inheritAll_nil (acl : Memory F) (role : Name) : acl.inheritAll role [] = acl := by
  simp [inheritAll]

@[simp] theorem inheritAll_inheritAll (acl : Memory F) (role : Name) (roles roles' : List Name) :
    (acl.inheritAll role roles).inheritAll role roles' = acl.inheritAll role (roles ++ roles') := by
  simp [inheritAll]

@[simp] theorem inheritAll_rolesNames (acl : Memory F) (role : Name) (roles : List Name) :
    (acl.inheritAll role roles).rolesNames = acl.rolesNames :=
  rfl

@[simp] theorem inheritAll_self (acl : Memory F) (role : Name) (roles : List Name) :
    (acl.inheritAll role roles).roleInherits role = acl.roleInherits role ++ roles := by
  simp [inheritAll]

theorem inheritAll_of_ne (acl : Memory F) {role other : Name} (ne : other ≠ role)
    (roles : List Name) :
    (acl.inheritAll role roles).roleInherits other = acl.roleInherits other := by
  simp [inheritAll, Function.update_of_ne ne]

theorem inheritFrom_eq (acl : Memory F) (role inherited : Name) :
    acl.inheritFrom role inherited = acl.inheritAll role [inherited] :=
  rfl

/-- The lists of the other roles are those of the graph, and that of the role begins with its
own. -/
structure Walking (graph : Name → List Name) (role : Name) (acl : Memory F) : Prop where
  registered : role ∈ acl.rolesNames
  others : ∀ other, other ≠ role → acl.roleInherits other = graph other
  own : ∃ added, acl.roleInherits role = graph role ++ added

variable {graph : Name → List Name} {role : Name} {acl : Memory F}

theorem Walking.inheritAll (walking : Walking graph role acl) (roles : List Name) :
    Walking graph role (acl.inheritAll role roles) where
  registered := walking.registered
  others other ne := by rw [inheritAll_of_ne _ ne, walking.others other ne]
  own := by
    obtain ⟨added, own⟩ := walking.own
    exact ⟨added ++ roles, by rw [inheritAll_self, own, List.append_assoc]⟩

theorem Walking.graph_nil (walking : Walking graph role acl)
    (empty : acl.roleInherits role = []) : graph role = [] := by
  obtain ⟨added, own⟩ := walking.own
  exact (List.append_eq_nil_iff.mp (own.symm.trans empty)).1

theorem addInherit_of_deep {fuel : Nat} {inherited : Name} {acl' : Memory F}
    (registered : role ∈ acl.rolesNames) (registered' : inherited ∈ acl'.rolesNames)
    (looped : deepInherits looseEq fuel acl role inherited 0 = some (acl', .ok ())) :
    addInherit looseEq (fuel + 1) acl role inherited =
      some (acl'.inheritAll role (entered looseEq role [inherited]),
        .ok (!looseEq role inherited)) := by
  rw [addInherit]
  simp only [registered, not_true_eq_false, if_false, looped, registered']
  cases equal : looseEq role inherited with
  | true => simp [entered, equal]
  | false => simp [entered, equal, inheritFrom_eq]

/-! ## The walk ends -/

theorem addInherit_of_loop {inherited : Name} {below : List Name}
    (walking : Walking graph role acl) (known : inherited ∈ acl.rolesNames)
    (first : Visits graph (graph inherited) below)
    (met : EmptyWhenMet looseEq role (acl.roleInherits role) (below ++ [inherited]))
    (loop : inherited ≠ role → ∃ enough, ∀ fuel, enough ≤ fuel →
      deepInherits looseEq fuel acl role inherited 0 =
        some (acl.inheritAll role (entered looseEq role below), .ok ())) :
    ∃ enough, ∀ fuel, enough ≤ fuel → addInherit looseEq fuel acl role inherited =
        some (acl.inheritAll role (entered looseEq role (below ++ [inherited])),
          .ok (!looseEq role inherited)) := by
  by_cases same : inherited = role
  · subst same
    have empty : acl.roleInherits inherited = [] := (List.append_eq_nil_iff.mp (met below [] rfl)).1
    have none_below : below = [] := by
      rw [walking.graph_nil empty] at first
      cases first
      rfl
    subst none_below
    refine ⟨2, fun fuel enough => ?_⟩
    obtain ⟨fuel, rfl⟩ := Nat.exists_eq_add_of_le' enough
    have looped : deepInherits looseEq (fuel + 1) acl inherited inherited 0 =
        some (acl, .ok ()) := by
      rw [deepInherits, empty]
      rfl
    rw [addInherit_of_deep walking.registered known looped]
    simp
  · obtain ⟨enough, looped⟩ := loop same
    refine ⟨enough + 1, fun fuel more => ?_⟩
    obtain ⟨fuel, rfl⟩ := Nat.exists_eq_add_of_le' (Nat.le_trans (Nat.le_add_left 1 _) more)
    have known' : inherited ∈ (acl.inheritAll role (entered looseEq role below)).rolesNames :=
      known
    rw [addInherit_of_deep walking.registered known' (looped fuel (by omega))]
    simp

theorem deepInherits_of_visits {roots order : List Name} (visits : Visits graph roots order) :
    ∀ acl : Memory F, Walking graph role acl → (∀ x ∈ order, x ∈ acl.rolesNames) →
      EmptyWhenMet looseEq role (acl.roleInherits role) order →
      ∀ parent done, parent ≠ role → graph parent = done ++ roots →
        ∃ enough, ∀ fuel, enough ≤ fuel → deepInherits looseEq fuel acl role parent done.length =
            some (acl.inheritAll role (entered looseEq role order), .ok ()) := by
  induction visits with
  | nil =>
    intro acl walking _ _ parent done ne here
    refine ⟨1, fun fuel enough => ?_⟩
    obtain ⟨fuel, rfl⟩ := Nat.exists_eq_add_of_le' enough
    have past : (acl.roleInherits parent)[done.length]? = none := by
      rw [walking.others parent ne, here]
      simp
    rw [deepInherits, past]
    simp
  | @cons root roots below behind first rest ihBelow ihBehind =>
    intro acl walking known met parent done ne here
    have whole : below ++ root :: behind = (below ++ [root]) ++ behind := by simp
    rw [whole] at met ⊢
    have metRoot := met.left
    have knownRoot : root ∈ acl.rolesNames := known root (by simp)
    have looped : root ≠ role → ∃ enough, ∀ fuel, enough ≤ fuel →
        deepInherits looseEq fuel acl role root 0 =
          some (acl.inheritAll role (entered looseEq role below), .ok ()) := fun ne =>
      ihBelow acl walking (fun x mem => known x (by simp [mem])) metRoot.left root [] ne rfl
    obtain ⟨enough, added⟩ := addInherit_of_loop walking knownRoot first metRoot looped
    have metBehind : EmptyWhenMet looseEq role
        ((acl.inheritAll role (entered looseEq role (below ++ [root]))).roleInherits role)
        behind := by
      rw [inheritAll_self]
      exact met.right
    obtain ⟨enough', looped⟩ := ihBehind _ (walking.inheritAll _)
      (fun x mem => known x (by simp [mem])) metBehind parent (done ++ [root]) ne (by simp [here])
    refine ⟨max enough enough' + 1, fun fuel more => ?_⟩
    obtain ⟨fuel, rfl⟩ := Nat.exists_eq_add_of_le' (Nat.le_trans (Nat.le_add_left 1 _) more)
    have element : (acl.roleInherits parent)[done.length]? = some root := by
      rw [walking.others parent ne, here]
      simp
    have next := looped fuel (by omega)
    rw [List.length_append, List.length_singleton] at next
    rw [deepInherits, element]
    simp only [added fuel (by omega)]
    rw [next, inheritAll_inheritAll, ← entered_append]

/-! ## A call that returns -/

structure Listed (looseEq : Name → Name → Bool) (acl : Memory F) : Prop where
  registered : ∀ role, ∀ inherited ∈ acl.roleInherits role, inherited ∈ acl.rolesNames
  apart : ∀ role, ∀ inherited ∈ acl.roleInherits role, looseEq role inherited = false
  listed : ∀ role, role ∉ acl.rolesNames → acl.roleInherits role = []

theorem Listed.inheritAll (listed : Listed looseEq acl) (registered : role ∈ acl.rolesNames)
    {order : List Name} (known : ∀ inherited ∈ order, inherited ∈ acl.rolesNames) :
    Listed looseEq (acl.inheritAll role (entered looseEq role order)) where
  registered other inherited mem := by
    by_cases same : other = role
    · subst same
      rw [inheritAll_self] at mem
      rcases List.mem_append.mp mem with mem | mem
      · exact listed.registered _ _ mem
      · exact known _ (List.mem_filter.mp mem).1
    · rw [inheritAll_of_ne _ same] at mem
      exact listed.registered _ _ mem
  apart other inherited mem := by
    by_cases same : other = role
    · subst same
      rw [inheritAll_self] at mem
      rcases List.mem_append.mp mem with mem | mem
      · exact listed.apart _ _ mem
      · simpa using (List.mem_filter.mp mem).2
    · rw [inheritAll_of_ne _ same] at mem
      exact listed.apart _ _ mem
  listed other unknown := by
    have ne : other ≠ role := by
      rintro rfl
      exact unknown registered
    rw [inheritAll_of_ne _ ne]
    exact listed.listed other unknown

theorem addInherit_ok {fuel : Nat} {inherited : Name} {outcome : Outcome F Bool}
    (registered : role ∈ acl.rolesNames)
    (returned : addInherit looseEq (fuel + 1) acl role inherited = some outcome) :
    ∃ inner, deepInherits looseEq fuel acl role inherited 0 = some inner := by
  rw [addInherit] at returned
  simp only [registered, not_true_eq_false, if_false] at returned
  cases looped : deepInherits looseEq fuel acl role inherited 0 with
  | none => simp [looped] at returned
  | some inner => exact ⟨inner, rfl⟩

/-- A call that returns has walked to an end, and a loop over the list of the role itself can
only return from its end: every turn makes the list longer. -/
theorem visits_of_returned (fuel : Nat) :
    ∀ acl : Memory F, Walking graph role acl → Listed looseEq acl →
      (∀ inherited outcome, inherited ∈ acl.rolesNames →
        addInherit looseEq fuel acl role inherited = some outcome →
          ∃ below, Visits graph (graph inherited) below ∧
            EmptyWhenMet looseEq role (acl.roleInherits role) (below ++ [inherited]) ∧
            (∀ x ∈ below, x ∈ acl.rolesNames) ∧
            outcome = (acl.inheritAll role (entered looseEq role (below ++ [inherited])),
              .ok (!looseEq role inherited))) ∧ (∀ parent position outcome, parent ≠ role →
        deepInherits looseEq fuel acl role parent position = some outcome →
          ∃ order, Visits graph ((graph parent).drop position) order ∧
            EmptyWhenMet looseEq role (acl.roleInherits role) order ∧
            (∀ x ∈ order, x ∈ acl.rolesNames) ∧
            outcome = (acl.inheritAll role (entered looseEq role order), .ok ())) ∧
      (∀ position outcome, deepInherits looseEq fuel acl role role position = some outcome →
        (acl.roleInherits role).length ≤ position ∧ outcome = (acl, .ok ())) := by
  induction fuel with
  | zero =>
    intro acl _ _
    refine ⟨?_, ?_, ?_⟩
    · intro inherited outcome _ returned
      simp [addInherit] at returned
    · intro parent position outcome _ returned
      simp [deepInherits] at returned
    · intro position outcome returned
      simp [deepInherits] at returned
  | succ fuel ih =>
    intro acl walking listed
    refine ⟨?_, ?_, ?_⟩
    · intro inherited outcome known returned
      obtain ⟨inner, looped⟩ := addInherit_ok walking.registered returned
      by_cases same : inherited = role
      · subst same
        obtain ⟨short, rfl⟩ := (ih acl walking listed).2.2 _ _ looped
        have empty : acl.roleInherits inherited = [] := by simpa using short
        rw [addInherit_of_deep walking.registered known looped] at returned
        have ends : Visits graph (graph inherited) [] := by
          rw [walking.graph_nil empty]
          exact .nil
        refine ⟨[], ends, ?_, by simp, by simpa using returned.symm⟩
        intro before behind split
        have first : before = [] := by
          cases before with
          | nil => rfl
          | cons head before => simp at split
        simp [first, empty]
      · obtain ⟨below, visits, met, known', rfl⟩ :=
          (ih acl walking listed).2.1 _ _ _ same looped
        have kept : inherited ∈ (acl.inheritAll role (entered looseEq role below)).rolesNames :=
          known
        rw [addInherit_of_deep walking.registered kept looped] at returned
        refine ⟨below, by simpa using visits, ?_, known', ?_⟩
        · refine met.append ?_
          intro before behind split
          cases before with
          | nil => exact absurd (by simpa using (List.cons.inj split).1) same
          | cons head before => simp at split
        · rw [← Option.some.inj returned]
          simp
    · intro parent position outcome ne returned
      rw [deepInherits, walking.others parent ne] at returned
      cases element : (graph parent)[position]? with
      | none =>
        simp only [element, Option.some.injEq] at returned
        have ends : Visits graph ((graph parent).drop position) [] := by
          rw [List.drop_eq_nil_of_le (List.getElem?_eq_none_iff.mp element)]
          exact .nil
        refine ⟨[], ends, ?_, by simp, by simpa using returned.symm⟩
        intro before behind split
        simp at split
      | some root =>
        obtain ⟨inside, here⟩ := List.getElem?_eq_some_iff.mp element
        have mem : root ∈ acl.roleInherits parent := by
          rw [walking.others parent ne]
          exact List.mem_of_getElem? element
        have known := listed.registered _ _ mem
        cases added : addInherit looseEq fuel acl role root with
        | none => simp [element, added] at returned
        | some inner =>
          obtain ⟨below, visits, met, knownBelow, rfl⟩ :=
            (ih acl walking listed).1 _ _ known added
          simp only [element, added] at returned
          have knownRoot := List.forall_mem_append.mpr
            ⟨knownBelow, List.forall_mem_singleton.mpr known⟩
          obtain ⟨order, rest, met', knownRest, rfl⟩ :=
            (ih _ (walking.inheritAll _) (listed.inheritAll walking.registered knownRoot)).2.1
              _ _ _ ne returned
          have list : (graph parent).drop position =
              root :: (graph parent).drop (position + 1) := by
            rw [← here]
            exact List.drop_eq_getElem_cons inside
          have whole : below ++ root :: order = (below ++ [root]) ++ order := by simp
          refine ⟨below ++ root :: order, list ▸ .cons visits rest, ?_, ?_, ?_⟩
          · rw [whole]
            refine met.append ?_
            simpa using met'
          · rw [whole]
            exact List.forall_mem_append.mpr ⟨knownRoot, knownRest⟩
          · rw [whole, inheritAll_inheritAll, ← entered_append]
    · intro position outcome returned
      rw [deepInherits] at returned
      cases element : (acl.roleInherits role)[position]? with
      | none =>
        simp only [element, Option.some.injEq] at returned
        exact ⟨List.getElem?_eq_none_iff.mp element, returned.symm⟩
      | some root =>
        -- the turn appends to the list, so the next one cannot be at its end
        have mem := List.mem_of_getElem? element
        have known := listed.registered _ _ mem
        have apart := listed.apart _ _ mem
        cases added : addInherit looseEq fuel acl role root with
        | none => simp [element, added] at returned
        | some inner =>
          obtain ⟨below, -, -, knownBelow, rfl⟩ := (ih acl walking listed).1 _ _ known added
          simp only [element, added] at returned
          have knownRoot := List.forall_mem_append.mpr
            ⟨knownBelow, List.forall_mem_singleton.mpr known⟩
          obtain ⟨short, -⟩ :=
            (ih _ (walking.inheritAll _) (listed.inheritAll walking.registered knownRoot)).2.2
              _ _ returned
          obtain ⟨inside, -⟩ := List.getElem?_eq_some_iff.mp element
          have longer : entered looseEq role [root] = [root] := by simp [entered, apart]
          rw [inheritAll_self, entered_append, longer] at short
          simp at short
          omega

/-- No cycle of inherited roles can be reached from the role that is inherited, and when the
walk over them comes to the role that inherits, its list is still empty. -/
structure Ends (looseEq : Name → Name → Bool) (graph : Name → List Name) (role inherited : Name) :
    Prop where
  acyclic : Acc (fun next vertex => Successor graph vertex next) inherited
  met : ∀ order, Visits graph [inherited] order → EmptyWhenMet looseEq role (graph role) order

theorem walking_self (registered : role ∈ acl.rolesNames) : Walking acl.roleInherits role acl :=
  ⟨registered, fun _ _ => rfl, [], by simp⟩

theorem Listed.known (listed : Listed looseEq acl) {inherited : Name}
    (known : inherited ∈ acl.rolesNames) {order : List Name}
    (visits : Visits acl.roleInherits [inherited] order) : ∀ x ∈ order, x ∈ acl.rolesNames := by
  intro x mem
  obtain ⟨root, isRoot, reached⟩ := visits.mem_iff.mp mem
  obtain rfl := List.mem_singleton.mp isRoot
  induction reached with
  | refl => exact known
  | @tail before after _ step _ => exact listed.registered before after step

theorem addInherit_of_returned (listed : Listed looseEq acl) (registered : role ∈ acl.rolesNames)
    {inherited : Name} (known : inherited ∈ acl.rolesNames) {fuel : Nat} {outcome : Outcome F Bool}
    (returned : addInherit looseEq fuel acl role inherited = some outcome) :
    ∃ order, Visits acl.roleInherits [inherited] order ∧
      EmptyWhenMet looseEq role (acl.roleInherits role) order ∧
      outcome = (acl.inheritAll role (entered looseEq role order),
        .ok (!looseEq role inherited)) := by
  obtain ⟨below, visits, met, -, result⟩ :=
    (visits_of_returned fuel acl (walking_self registered) listed).1 _ _ known returned
  exact ⟨below ++ [inherited], visits.singleton, met, result⟩

theorem addInherit_returns_iff (listed : Listed looseEq acl) (registered : role ∈ acl.rolesNames)
    {inherited : Name} (known : inherited ∈ acl.rolesNames) :
    (∃ fuel outcome, addInherit looseEq fuel acl role inherited = some outcome) ↔
      Ends looseEq acl.roleInherits role inherited := by
  constructor
  · rintro ⟨fuel, outcome, returned⟩
    obtain ⟨order, visits, met, -⟩ := addInherit_of_returned listed registered known returned
    refine ⟨visits.acc inherited (.head _), fun order' visits' => ?_⟩
    rw [visits'.unique visits]
    exact met
  · intro ends
    have reachable : ∀ root ∈ [inherited],
        Acc (fun next vertex => Successor acl.roleInherits vertex next) root := by
      intro root mem
      rw [List.mem_singleton.mp mem]
      exact ends.acyclic
    obtain ⟨order, visits⟩ := Visits.exists_of_acc reachable
    have met := ends.met order visits
    have knownAll := listed.known known visits
    obtain ⟨below, rfl, first⟩ := visits.singleton_inv
    obtain ⟨enough, returns⟩ := addInherit_of_loop (walking_self registered) known first met
      fun ne => deepInherits_of_visits first acl (walking_self registered)
        (fun x mem => knownAll x (by simp [mem])) met.left inherited [] ne rfl
    exact ⟨enough, _, returns enough (Nat.le_refl _)⟩

theorem addInherit_of_unknown (listed : Listed looseEq acl) (registered : role ∈ acl.rolesNames)
    {inherited : Name} (unknown : inherited ∉ acl.rolesNames) {fuel : Nat} :
    addInherit looseEq (fuel + 2) acl role inherited =
      some (acl, .error (.unknownRoleToInherit inherited)) := by
  have looped : deepInherits looseEq (fuel + 1) acl role inherited 0 = some (acl, .ok ()) := by
    rw [deepInherits, listed.listed inherited unknown]
    rfl
  rw [addInherit]
  simp only [registered, not_true_eq_false, if_false, looped, unknown, not_false_eq_true, if_true]

end Memory

/-! ## Declared inheritances -/

def Declared (declared : List (Name × Name)) (role inherited : Name) : Prop :=
  (role, inherited) ∈ declared

def Acyclic (declared : List (Name × Name)) : Prop :=
  ∀ role, ¬ Relation.TransGen (Declared declared) role role

/-- The lists are what can be reached by the declared inheritances. -/
def Complete (acl : Memory F) (declared : List (Name × Name)) : Prop :=
  ∀ role inherited, inherited ∈ acl.roleInherits role ↔
    Relation.TransGen (Declared declared) role inherited

/-- When the lists stay complete: a role that inherits the role already inherits what the role
is to inherit, and none of it has a name that equals that of the role. -/
structure AboveFirst (looseEq : Name → Name → Bool) (declared : List (Name × Name))
    (role inherited : Name) : Prop where
  lower : ∀ lower, Relation.TransGen (Declared declared) lower role →
    Relation.TransGen (Declared declared) lower inherited
  distinct : ∀ upper, Relation.ReflTransGen (Declared declared) inherited upper →
    looseEq role upper = false

section

variable {declared : List (Name × Name)} {role inherited : Name} {acl : Memory F}

theorem transGen_declare {x y : Name} :
    Relation.TransGen (Declared (declared ++ [(role, inherited)])) x y ↔
      Relation.TransGen (Declared declared) x y ∨
        (Relation.ReflTransGen (Declared declared) x role ∧
          Relation.ReflTransGen (Declared declared) inherited y) :=
  transGen_addEdge fun x y => by simp [Declared]

theorem Acyclic.before {more : List (Name × Name)} (acyclic : Acyclic (declared ++ more)) :
    Acyclic declared := by
  intro role path
  have old : Declared declared ≤ Declared (declared ++ more) := fun _ _ mem =>
    List.mem_append_left _ mem
  exact acyclic role (Relation.TransGen.mono old _ _ path)

theorem Complete.mem_visits (complete : Complete acl declared) {order : List Name}
    (visits : Visits acl.roleInherits [inherited] order) {x : Name} :
    x ∈ order ↔ Relation.ReflTransGen (Declared declared) inherited x := by
  have same : Successor acl.roleInherits = Relation.TransGen (Declared declared) := by
    funext lower upper
    exact propext (complete lower upper)
  rw [visits.mem_iff, same, Relation.reflTransGen_transGen]
  simp

theorem Complete.declare_iff (complete : Complete acl declared)
    (listed : Memory.Listed looseEq acl) (registered : role ∈ acl.rolesNames)
    (known : inherited ∈ acl.rolesNames) (acyclic : Acyclic (declared ++ [(role, inherited)]))
    {order : List Name} (visits : Visits acl.roleInherits [inherited] order) :
    Complete (acl.inheritAll role (entered looseEq role order)) (declared ++ [(role, inherited)]) ↔
      AboveFirst looseEq declared role inherited := by
  have counted : ∀ x, x ∈ order ↔ Relation.ReflTransGen (Declared declared) inherited x :=
    fun x => complete.mem_visits visits
  have reached : ∀ {upper}, Relation.ReflTransGen (Declared declared) inherited upper →
      Relation.TransGen (Declared (declared ++ [(role, inherited)])) role upper :=
    fun path => transGen_declare.mpr (.inr ⟨.refl, path⟩)
  constructor
  · intro after
    refine ⟨fun lower path => ?_, fun upper path => ?_⟩
    · have ne : lower ≠ role := by
        rintro rfl
        exact acyclic.before _ path
      have new := (after lower inherited).mpr
        (transGen_declare.mpr (.inr ⟨path.to_reflTransGen, .refl⟩))
      rw [Memory.inheritAll_of_ne _ ne] at new
      exact (complete lower inherited).mp new
    · exact (listed.inheritAll registered (listed.known known visits)).apart role upper
        ((after role upper).mpr (reached path))
  · intro above lower upper
    rw [transGen_declare]
    by_cases same : lower = role
    · subst same
      rw [Memory.inheritAll_self, List.mem_append, complete lower upper]
      simp only [entered, List.mem_filter, counted, Bool.not_eq_true']
      constructor
      · rintro (old | ⟨path, -⟩)
        · exact .inl old
        · exact .inr ⟨.refl, path⟩
      · rintro (old | ⟨-, path⟩)
        · exact .inl old
        · exact .inr ⟨path, above.distinct upper path⟩
    · rw [Memory.inheritAll_of_ne _ same, complete lower upper]
      constructor
      · exact .inl
      · rintro (old | ⟨toRole, path⟩)
        · exact old
        · rcases Relation.reflTransGen_iff_eq_or_transGen.mp toRole with eq | toRole
          · exact absurd eq.symm same
          · exact (above.lower lower toRole).trans_left path

end

def Call.declares (acl : Memory F) : Call F → List (Name × Name)
  | .addRole role (some inherits) =>
    if role ≠ star ∧ role ∉ acl.rolesNames ∧ inherits ∈ acl.rolesNames ++ [role] then
      [(role, inherits)]
    else []
  | .addInherit roleName roleToInherit =>
    if roleName ∈ acl.rolesNames ∧ roleToInherit ∈ acl.rolesNames then
      [(roleName, roleToInherit)]
    else []
  | .addRole _ none | .addResource .. | .allow .. | .deny .. => []

/-- The condition on a call: each inheritance it declares ends its walk, and, while no cycle is
declared, is declared before those to its role. -/
def Call.Meets (looseEq : Name → Name → Bool) (acl : Memory F) (declared : List (Name × Name))
    (call : Call F) : Prop :=
  ∀ edge ∈ call.declares acl, Memory.Ends looseEq acl.roleInherits edge.1 edge.2 ∧
    (Acyclic (declared ++ [edge]) → AboveFirst looseEq declared edge.1 edge.2)

inductive Reached (looseEq : Name → Name → Bool)
    (condition : Memory F → List (Name × Name) → Call F → Prop) :
    Memory F → List (Name × Name) → Prop
  | start (defaultAccess noArgumentsDefaultAction : Int) :
      Reached looseEq condition (start defaultAccess noArgumentsDefaultAction) []
  | call {acl acl' : Memory F} {declared : List (Name × Name)} (call : Call F) (fuel : Nat) :
      Reached looseEq condition acl declared → condition acl declared call →
        call.perform looseEq fuel acl = some acl' →
          Reached looseEq condition acl' (declared ++ call.declares acl)

structure Grown (acl acl' : Memory F) : Prop where
  roles : ∀ role ∈ acl.rolesNames, role ∈ acl'.rolesNames
  inherits : acl'.roleInherits = acl.roleInherits

namespace Grown

variable {acl acl' : Memory F}

theorem addRole (acl : Memory F) (role : Name) :
    Grown acl { acl with rolesNames := acl.rolesNames ++ [role] } :=
  ⟨fun _ mem => List.mem_append_left _ mem, rfl⟩

theorem set (acl : Memory F) (role resource : Name) (access : Access) (action : Action)
    (func : Option (Callback F)) : Grown acl (acl.set role resource access action func).1 := by
  rw [Memory.set_eq]
  obtain ⟨roles, -, -⟩ :=
    Memory.registers_foldl_enter (acl.rules role resource access action func) acl
  exact ⟨fun _ mem => roles ▸ mem, Memory.roleInherits_foldl_enter _ acl⟩

theorem addResource (acl : Memory F) (resource : Name) (accessList : Access) :
    Grown acl (acl.addResource resource accessList).1 := by
  obtain ⟨roles, inherits⟩ := Memory.addResource_roles acl resource accessList
  exact ⟨fun _ mem => roles ▸ mem, inherits⟩

theorem listed (grown : Grown acl acl') (listed : Memory.Listed looseEq acl) :
    Memory.Listed looseEq acl' where
  registered role inherited mem := by
    rw [grown.inherits] at mem
    exact grown.roles _ (listed.registered _ _ mem)
  apart role inherited mem := by
    rw [grown.inherits] at mem
    exact listed.apart _ _ mem
  listed role unknown := by
    rw [grown.inherits]
    exact listed.listed role fun mem => unknown (grown.roles _ mem)

theorem complete (grown : Grown acl acl') {declared : List (Name × Name)}
    (complete : Complete acl declared) : Complete acl' declared := by
  intro role inherited
  rw [grown.inherits]
  exact complete role inherited

end Grown

/-- What a call that returns has done: nothing to the lists, or it has entered the one
inheritance that it declares. -/
inductive Performed (looseEq : Name → Name → Bool) (acl acl' : Memory F) :
    List (Name × Name) → Prop
  | kept : Grown acl acl' → Performed looseEq acl acl' []
  | inherited {role inherited : Name} {order : List Name} {between : Memory F} :
      Grown acl between → role ∈ between.rolesNames → inherited ∈ between.rolesNames →
        Visits between.roleInherits [inherited] order →
          acl' = between.inheritAll role (entered looseEq role order) →
            Performed looseEq acl acl' [(role, inherited)]

theorem performed_addInherit {acl between : Memory F} (grown : Grown acl between)
    (listed : Memory.Listed looseEq between) {role inherited : Name}
    (registered : role ∈ between.rolesNames) {fuel : Nat} {outcome : Outcome F Bool}
    (returned : Memory.addInherit looseEq fuel between role inherited = some outcome) :
    Performed looseEq acl outcome.1
      (if inherited ∈ between.rolesNames then [(role, inherited)] else []) := by
  by_cases isRole : inherited ∈ between.rolesNames
  · obtain ⟨order, visits, -, rfl⟩ :=
      Memory.addInherit_of_returned listed registered isRole returned
    rw [if_pos isRole]
    exact .inherited grown registered isRole visits rfl
  · rw [if_neg isRole]
    match fuel with
    | 0 => simp [Memory.addInherit] at returned
    | 1 => simp [Memory.addInherit, Memory.deepInherits, registered] at returned
    | fuel + 2 =>
      rw [Memory.addInherit_of_unknown listed registered isRole] at returned
      cases returned
      exact .kept grown

theorem Call.performed {acl acl' : Memory F} (listed : Memory.Listed looseEq acl) {call : Call F}
    {fuel : Nat} (returned : call.perform looseEq fuel acl = some acl') :
    Performed looseEq acl acl' (call.declares acl) := by
  have unchanged : Grown acl acl := ⟨fun _ mem => mem, rfl⟩
  cases call with
  | addRole role accessInherits =>
    obtain ⟨outcome, added, rfl⟩ := Option.map_eq_some_iff.mp returned
    unfold Memory.addRole at added
    by_cases reserved : role = star
    · rw [if_pos reserved] at added
      cases added
      cases accessInherits <;> simpa [Call.declares, reserved] using .kept unchanged
    by_cases present : role ∈ acl.rolesNames
    · rw [if_neg reserved, if_pos present] at added
      cases added
      cases accessInherits <;> simpa [Call.declares, present] using .kept unchanged
    rw [if_neg reserved, if_neg present] at added
    have grown := Grown.addRole acl role
    cases accessInherits with
    | none =>
      cases added
      exact .kept grown
    | some inherits =>
      have entered := performed_addInherit grown (grown.listed listed)
        (List.mem_append_right _ (by simp)) added
      simpa only [Call.declares, ne_eq, reserved, present, not_false_eq_true, true_and]
        using entered
  | addInherit role inherits =>
    obtain ⟨outcome, added, rfl⟩ := Option.map_eq_some_iff.mp returned
    by_cases registered : role ∈ acl.rolesNames
    · simpa only [Call.declares, registered, true_and] using
        performed_addInherit unchanged listed registered added
    · cases fuel with
      | zero => simp [Memory.addInherit] at added
      | succ fuel =>
        simp only [Memory.addInherit, registered, not_false_eq_true, if_true,
          Option.some.injEq] at added
        subst added
        simpa [Call.declares, registered] using .kept unchanged
  | addResource resource accessList =>
    cases returned
    exact .kept (.addResource acl resource accessList)
  | allow role resource access func =>
    cases returned
    exact .kept (.set acl role resource access .allow func)
  | deny role resource access func =>
    cases returned
    exact .kept (.set acl role resource access .deny func)

theorem Performed.single {acl acl' : Memory F} {edges : List (Name × Name)}
    (performed : Performed looseEq acl acl' edges) {edge : Name × Name} (mem : edge ∈ edges) :
    edges = [edge] := by
  cases performed with
  | kept => simp at mem
  | inherited => rw [List.mem_singleton.mp mem]

theorem Performed.listed {acl acl' : Memory F} {edges : List (Name × Name)}
    (performed : Performed looseEq acl acl' edges) (listed : Memory.Listed looseEq acl) :
    Memory.Listed looseEq acl' := by
  cases performed with
  | kept grown => exact grown.listed listed
  | inherited grown registered isRole visits result =>
    have listed := grown.listed listed
    exact result ▸ listed.inheritAll registered (listed.known isRole visits)

theorem Performed.complete {acl acl' : Memory F} {declared edges : List (Name × Name)}
    (performed : Performed looseEq acl acl' edges) (listed : Memory.Listed looseEq acl)
    (complete : Complete acl declared) (acyclic : Acyclic (declared ++ edges))
    (above : ∀ edge ∈ edges, AboveFirst looseEq declared edge.1 edge.2) :
    Complete acl' (declared ++ edges) := by
  cases performed with
  | kept grown =>
    rw [List.append_nil]
    exact grown.complete complete
  | inherited grown registered isRole visits result =>
    rw [result]
    exact ((grown.complete complete).declare_iff (grown.listed listed) registered isRole acyclic
      visits).mpr (above _ (List.mem_singleton_self _))

theorem listed_start (defaultAccess noArgumentsDefaultAction : Int) :
    Memory.Listed looseEq (start defaultAccess noArgumentsDefaultAction : Memory F) :=
  ⟨by simp [start, Memory.new], by simp [start, Memory.new], fun _ _ => rfl⟩

theorem complete_start (defaultAccess noArgumentsDefaultAction : Int) :
    Complete (start defaultAccess noArgumentsDefaultAction : Memory F) [] := by
  intro role inherited
  have none_declared : ¬ Relation.TransGen (Declared []) role inherited := by
    intro path
    obtain ⟨_, step, _⟩ := Relation.TransGen.head'_iff.mp path
    simp [Declared] at step
  simp [start, Memory.new, none_declared]

theorem Reached.listed {condition : Memory F → List (Name × Name) → Call F → Prop}
    {acl : Memory F} {declared : List (Name × Name)}
    (reached : Reached looseEq condition acl declared) : Memory.Listed looseEq acl := by
  induction reached with
  | start => exact listed_start _ _
  | call _ _ _ _ returned ih => exact (Call.performed ih returned).listed ih

theorem Reached.complete {acl : Memory F} {declared : List (Name × Name)}
    (reached : Reached looseEq (Call.Meets looseEq) acl declared) (acyclic : Acyclic declared) :
    Complete acl declared := by
  induction reached with
  | start => exact complete_start _ _
  | @call acl acl' declared call _ before meets returned ih =>
    have listed := before.listed
    refine (Call.performed listed returned).complete listed (ih acyclic.before) acyclic ?_
    intro edge mem
    have single := (Call.performed listed returned).single mem
    exact (meets edge mem).2 (single ▸ acyclic)

theorem addInherit_returns {acl : Memory F} (listed : Memory.Listed looseEq acl)
    {role inherited : Name} (ends : role ∈ acl.rolesNames → inherited ∈ acl.rolesNames →
      Memory.Ends looseEq acl.roleInherits role inherited) :
    ∃ fuel outcome, Memory.addInherit looseEq fuel acl role inherited = some outcome := by
  by_cases registered : role ∈ acl.rolesNames
  swap
  · exact ⟨1, (acl, .error (.unknownRole role)), by simp [Memory.addInherit, registered]⟩
  by_cases isRole : inherited ∈ acl.rolesNames
  · exact (Memory.addInherit_returns_iff listed registered isRole).mpr (ends registered isRole)
  · exact ⟨2, _, Memory.addInherit_of_unknown listed registered isRole⟩

theorem Call.returns {acl : Memory F} (listed : Memory.Listed looseEq acl) {call : Call F}
    (ends : ∀ edge ∈ call.declares acl, Memory.Ends looseEq acl.roleInherits edge.1 edge.2) :
    ∃ fuel acl', call.perform looseEq fuel acl = some acl' := by
  cases call with
  | addRole role accessInherits =>
    by_cases reserved : role = star
    · exact ⟨0, acl, by simp [Call.perform, Memory.addRole, reserved]⟩
    by_cases present : role ∈ acl.rolesNames
    · exact ⟨0, acl, by simp [Call.perform, Memory.addRole, reserved, present]⟩
    have grown := Grown.addRole acl role
    cases accessInherits with
    | none =>
      exact ⟨0, { acl with rolesNames := acl.rolesNames ++ [role] },
        by simp [Call.perform, Memory.addRole, reserved, present]⟩
    | some inherits =>
      obtain ⟨fuel, outcome, added⟩ := @addInherit_returns _ looseEq _ (grown.listed listed) role
        inherits fun _ isRole => ends (role, inherits) (by
          rw [Call.declares, if_pos ⟨reserved, present, isRole⟩]
          exact List.mem_singleton_self _)
      exact ⟨fuel, outcome.1, by simp [Call.perform, Memory.addRole, reserved, present, added]⟩
  | addInherit role inherits =>
    obtain ⟨fuel, outcome, added⟩ := @addInherit_returns _ looseEq _ listed role inherits
      fun registered isRole => ends (role, inherits) (by
        rw [Call.declares, if_pos ⟨registered, isRole⟩]
        exact List.mem_singleton_self _)
    exact ⟨fuel, outcome.1, by simp [Call.perform, added]⟩
  | addResource | allow | deny => exact ⟨0, _, rfl⟩

/-- In every run whose calls meet the condition, each further call that meets it returns, and
while no cycle is declared the roles that `isAllowed` consults for a role are those that can
be reached from it by the declared inheritances. -/
theorem returns_and_complete {acl : Memory F} {declared : List (Name × Name)}
    (reached : Reached looseEq (Call.Meets looseEq) acl declared) :
    (∀ call : Call F, call.Meets looseEq acl declared →
        ∃ fuel acl', call.perform looseEq fuel acl = some acl') ∧
      (Acyclic declared → ∀ role consulted, consulted ∈ role :: acl.roleInherits role ↔
          Relation.ReflTransGen (Declared declared) role consulted) := by
  refine ⟨fun call meets => Call.returns reached.listed fun edge mem => (meets edge mem).1,
    fun acyclic role consulted => ?_⟩
  rw [List.mem_cons, reached.complete acyclic role consulted,
    Relation.reflTransGen_iff_eq_or_transGen]

def performAll (looseEq : Name → Name → Bool) (fuel : Nat) :
    Memory F × List (Name × Name) → List (Call F) → Option (Memory F × List (Name × Name))
  | final, [] => some final
  | (acl, declared), call :: calls =>
    match call.perform looseEq fuel acl with
    | none => none
    | some acl' => performAll looseEq fuel (acl', declared ++ call.declares acl) calls

theorem Reached.run {acl : Memory F} {declared : List (Name × Name)}
    (reached : Reached looseEq (fun _ _ _ => True) acl declared) (calls : List (Call F))
    (fuel : Nat) {final : Memory F × List (Name × Name)}
    (ran : performAll looseEq fuel (acl, declared) calls = some final) :
    Reached looseEq (fun _ _ _ => True) final.1 final.2 := by
  induction calls generalizing acl declared with
  | nil =>
    cases ran
    exact reached
  | cons call calls ih =>
    rw [performAll] at ran
    cases returned : call.perform looseEq fuel acl with
    | none => simp [returned] at ran
    | some acl' =>
      simp only [returned] at ran
      exact ih (reached.call call fuel trivial returned) ran

theorem acyclic_of_rank {declared : List (Name × Name)} (rank : Name → Nat)
    (descends : ∀ edge ∈ declared, rank edge.2 < rank edge.1) : Acyclic declared := by
  have below : ∀ x y, Relation.TransGen (Declared declared) x y → rank y < rank x := by
    intro x y path
    induction path with
    | single step => exact descends _ step
    | tail _ step ih => exact Nat.lt_trans (descends _ step) ih
  intro role cycle
  exact Nat.lt_irrefl _ (below role role cycle)

namespace Staff

def admin : Name := [97]
def editor : Name := [98]
def guest : Name := [103]

/-- `"="`: the comparison of names that are no numbers. -/
def same (left right : Name) : Bool := left == right

def rank (name : Name) : Nat :=
  if name = admin then 2 else if name = editor then 1 else 0

theorem meets_editor : (Call.addRole editor (some guest) : Call Unit).Meets same
    { (start 0 0 : Memory Unit) with rolesNames := [guest] } [] := by
  intro edge mem
  have isEdge : edge = (editor, guest) := by simpa [Call.declares, editor, guest, star] using mem
  subst isEdge
  have alone : ∀ x y, ¬ Relation.TransGen (Declared []) x y := by
    intro x y path
    obtain ⟨_, step, _⟩ := Relation.TransGen.head'_iff.mp path
    simp [Declared] at step
  refine ⟨⟨⟨_, nofun⟩, ?_⟩, fun _ => ⟨fun lower path => absurd path (alone _ _), ?_⟩⟩
  · intro order visits before behind split
    obtain ⟨below, rfl, first⟩ := visits.singleton_inv
    cases first
    have mem : editor ∈ [] ++ [guest] := split ▸ by simp
    exact absurd mem (by decide)
  · intro upper path
    rcases Relation.reflTransGen_iff_eq_or_transGen.mp path with rfl | path
    · decide
    · exact absurd path (alone _ _)

def calls : List (Call Unit) :=
  [.addRole guest none, .addRole editor none, .addRole admin none, .addInherit admin editor,
    .addInherit editor guest]

def circle : List (Call Unit) :=
  [.addRole guest none, .addRole editor (some guest), .addInherit guest editor]

end Staff

theorem returns_and_complete_editor :
    ∃ acl declared, Reached Staff.same (Call.Meets Staff.same) acl declared ∧
      (Staff.guest ∈ Staff.editor :: (acl : Memory Unit).roleInherits Staff.editor ↔
        Relation.ReflTransGen (Declared declared) Staff.editor Staff.guest) := by
  have first : Reached Staff.same (Call.Meets Staff.same)
      { (start 0 0 : Memory Unit) with rolesNames := [Staff.guest] } [] :=
    .call (.addRole Staff.guest none) 0 (.start 0 0) nofun rfl
  have second := first.call _ 3 Staff.meets_editor rfl
  refine ⟨_, _, second, (returns_and_complete second).2 (acyclic_of_rank Staff.rank ?_) _ _⟩
  decide

/-- The guest stays unknown to the admin, though the admin inherits from the editor and the
editor from the guest. -/
theorem not_complete :
    ∃ acl declared, Reached Staff.same (fun _ _ _ => True) (acl : Memory Unit) declared ∧
      Acyclic declared ∧ Relation.ReflTransGen (Declared declared) Staff.admin Staff.guest ∧
      Staff.guest ∉ Staff.admin :: acl.roleInherits Staff.admin := by
  refine ⟨_, _, .run (.start 0 0) Staff.calls 9 rfl, acyclic_of_rank Staff.rank ?_, ?_, ?_⟩
  · decide
  · exact .tail (.single (.head _)) (.tail _ (.head _))
  · decide

/-- Two roles that inherit from each other: none of them can be told so again. -/
theorem not_returns :
    ∃ acl declared, Reached Staff.same (fun _ _ _ => True) (acl : Memory Unit) declared ∧
      ∀ fuel, Memory.addInherit Staff.same fuel acl Staff.guest Staff.editor = none := by
  have reached : Reached Staff.same (fun _ _ _ => True) (_ : Memory Unit) _ :=
    .run (.start 0 0) Staff.circle 9 rfl
  refine ⟨_, _, reached, fun fuel => ?_⟩
  cases returned : Memory.addInherit Staff.same fuel _ Staff.guest Staff.editor with
  | none => rfl
  | some outcome =>
    have ends := (Memory.addInherit_returns_iff reached.listed (by decide) (by decide)).mp
      ⟨fuel, outcome, returned⟩
    refine absurd ?_ (not_transGen_of_acc ends.acyclic)
    exact .tail (.single (by decide : Staff.guest ∈ [Staff.guest]))
      (by decide : Staff.editor ∈ [Staff.editor])

end PhpExts.Phalcon.Acl
