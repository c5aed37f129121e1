import PhpExts.Swoole.TimeWheel

/-!
# Runs of the time wheel

A connection is due at every forward whose number since its last add or update is a multiple of
the size of the wheel. Under any sequence of calls the sweeps visit exactly the connections that
are due, and every connection stands in one slot, exactly if no connection is added twice and no
sweep closes a connection beside which another one stands, or meets the iterator an earlier one
has left on a node that was freed (`right_iff`).
-/

namespace PhpExts.Swoole.TimeWheel

/-- A call that reaches the wheel, or a connection that is taken from the reactor's events or
back to them. -/
inductive Step where
  | add (fd : Nat)
  | update (fd : Nat)
  | remove (fd : Nat)
  | close (fd : Nat)
  | setRemoved (fd : Nat) (removed : Bool)
  | forward

def Reactor.step (r : Reactor) : Step → Swept
  | .add fd => .returned (r.add fd) []
  | .update fd => .returned (r.update fd) []
  | .remove fd => .returned (r.remove fd) []
  | .close fd => .returned (r.close fd) []
  | .setRemoved fd removed => .returned (r.setRemoved fd removed) []
  | .forward => r.forward

/-! ## What the wheel is for -/

/-- How many forwards a connection has seen since its last add or update, if it was not removed
since, and which connections are not watched. -/
structure Idle where
  forwards : Nat → Option Nat
  removed : Nat → Bool

namespace Idle

def new : Idle := ⟨fun _ => none, fun _ => false⟩

/-- The forward that comes has a number that is a multiple of the size: it is the `size`-th, or
the connection was marked before. -/
def Due (size : Nat) (idle : Idle) (fd : Nat) : Prop :=
  ∃ k, idle.forwards fd = some k ∧ size ∣ k + 1

/-- Within the first turn of the wheel it is the `size`-th forward that marks the connection. -/
theorem due_iff_size {size : Nat} {idle : Idle} {fd k : Nat} (known : idle.forwards fd = some k)
    (first : k < size) : idle.Due size fd ↔ k + 1 = size := by
  constructor
  · rintro ⟨k', known', divides⟩
    rw [known] at known'
    cases known'
    have := Nat.le_of_dvd (Nat.succ_pos k) divides
    omega
  · rintro rfl
    exact ⟨k, known, Nat.dvd_refl _⟩

/-- A connection that is due is closed at once if it is not watched. -/
def step (size : Nat) (idle : Idle) : Step → Idle
  | .add fd | .update fd => { idle with forwards := Function.update idle.forwards fd (some 0) }
  | .remove fd => { idle with forwards := Function.update idle.forwards fd none }
  | .close fd =>
    ⟨Function.update idle.forwards fd none, Function.update idle.removed fd true⟩
  | .setRemoved fd removed => { idle with removed := Function.update idle.removed fd removed }
  | .forward =>
    { idle with
      forwards := fun fd => (idle.forwards fd).bind fun k =>
        if size ∣ k + 1 ∧ idle.removed fd then none else some (k + 1) }

end Idle

def InOneSlot (r : Reactor) (fd : Nat) : Prop :=
  (r.connections fd).timewheelIndex < r.size ∧
    ∀ i, (r.wheel i).keys.count fd = if i = (r.connections fd).timewheelIndex then 1 else 0

/-- A sweep visits the connections of its slot once each, and these are the ones that are due.
They get their marks, or are closed; nothing happens to the others. -/
structure Sweeps (r : Reactor) (idle : Idle) (r' : Reactor) (visited : List Nat) : Prop where
  slot : visited = (r.wheel r.current).keys
  once : visited.Nodup
  due : ∀ fd, fd ∈ visited ↔ idle.Due r.size fd
  marked : ∀ fd ∈ visited, r'.connections fd =
    if (r.connections fd).removed then { Connection.zero with removed := true }
    else Reactor.mark (r.connections fd)
  others : ∀ fd, fd ∉ visited → r'.connections fd = r.connections fd

/-- All through the run the connections that were added and not removed stand in one slot, and
each forward comes to its end and sweeps as it should. -/
def Right (r : Reactor) (idle : Idle) : List Step → Prop
  | [] => ∀ fd, idle.forwards fd ≠ none → InOneSlot r fd
  | step :: steps =>
    (∀ fd, idle.forwards fd ≠ none → InOneSlot r fd) ∧
      ∃ r' visited, r.step step = .returned r' visited ∧
        (step = .forward → Sweeps r idle r' visited) ∧
        Right r' (idle.step r.size step) steps

def InWheel (r : Reactor) (fd : Nat) : Prop :=
  fd ∈ (r.wheel (r.connections fd).timewheelIndex).keys

/-- A connection is not added twice, and an update finds it in the wheel, or at least with
another index than the new one. The slot of a forward is empty, or its iterator is at the start
and no connection in it has lost its events, but for one that stands there alone. -/
def Allowed (r : Reactor) : Step → Prop
  | .add fd => ¬ InWheel r fd
  | .update fd => InWheel r fd ∨ (r.connections fd).timewheelIndex ≠ r.newIndex
  | .forward =>
    (r.wheel r.current).nodes = [] ∨ (r.wheel r.current).iterator = none ∧
      ((∀ fd ∈ (r.wheel r.current).keys, (r.connections fd).removed = false) ∨
        (r.wheel r.current).nodes.length = 1)
  | _ => True

def AllAllowed (r : Reactor) : List Step → Prop
  | [] => True
  | step :: steps =>
    Allowed r step ∧ ∀ r' visited, r.step step = .returned r' visited → AllAllowed r' steps

structure HashMap.Ok (addr : Nat) (map : HashMap) : Prop where
  keys : map.keys.Nodup
  addrs : map.addrs.Nodup
  given : ∀ a ∈ map.addrs, a < addr
  iterator : ∀ a, map.iterator = some a → a < addr ∧ a ∉ map.addrs

namespace HashMap.Ok

variable {addr : Nat} {map : HashMap}

theorem new : HashMap.new.Ok 0 :=
  ⟨List.nodup_nil, List.nodup_nil, by simp [HashMap.new, HashMap.addrs],
    by simp [HashMap.new]⟩

theorem succ (ok : map.Ok addr) : map.Ok (addr + 1) :=
  ⟨ok.keys, ok.addrs, fun a mem => Nat.lt_succ_of_lt (ok.given a mem),
    fun a here => ⟨Nat.lt_succ_of_lt (ok.iterator a here).1, (ok.iterator a here).2⟩⟩

theorem addInt (ok : map.Ok addr) {key : Nat} (fresh : key ∉ map.keys) :
    (map.addInt addr key).Ok (addr + 1) := by
  have keys : (map.addInt addr key).keys = map.keys ++ [key] := by
    simp [HashMap.keys, HashMap.addInt]
  have addrs : (map.addInt addr key).addrs = map.addrs ++ [addr] := by
    simp [HashMap.addrs, HashMap.addInt]
  refine ⟨?_, ?_, ?_, ?_⟩
  · rw [keys]
    simpa using ok.keys.concat fresh
  · rw [addrs]
    have notGiven : addr ∉ map.addrs := fun mem => Nat.lt_irrefl _ (ok.given addr mem)
    simpa using ok.addrs.concat notGiven
  · rw [addrs]
    exact List.forall_mem_append.mpr ⟨fun a mem => Nat.lt_succ_of_lt (ok.given a mem),
      List.forall_mem_singleton.mpr (Nat.lt_succ_self addr)⟩
  · intro a here
    obtain ⟨lt, freed⟩ := ok.iterator a here
    refine ⟨Nat.lt_succ_of_lt lt, ?_⟩
    rw [addrs, List.mem_append, not_or]
    exact ⟨freed, by simpa using Nat.ne_of_lt lt⟩

theorem delInt (ok : map.Ok addr) (key : Nat) : (map.delInt key).Ok addr := by
  have sub : (map.delInt key).nodes.Sublist map.nodes := by
    rw [HashMap.nodes_delInt ok.keys]
    exact List.filter_sublist
  have subAddrs : (map.delInt key).addrs.Sublist map.addrs := sub.map _
  exact ⟨ok.keys.sublist (sub.map _), ok.addrs.sublist subAddrs,
    fun a mem => ok.given a (subAddrs.subset mem),
    fun a here => ⟨(ok.iterator a here).1, fun mem => (ok.iterator a here).2 (subAddrs.subset mem)⟩⟩

theorem mem_keys_delInt (ok : map.Ok addr) {key fd : Nat} :
    fd ∈ (map.delInt key).keys ↔ fd ∈ map.keys ∧ fd ≠ key := by
  rw [HashMap.keys, HashMap.nodes_delInt ok.keys, HashMap.keys]
  simp only [List.mem_map, List.mem_filter, decide_eq_true_eq]
  constructor
  · rintro ⟨node, ⟨mem, other⟩, rfl⟩
    exact ⟨⟨node, mem, rfl⟩, other⟩
  · rintro ⟨⟨node, mem, rfl⟩, other⟩
    exact ⟨node, ⟨mem, other⟩, rfl⟩

end HashMap.Ok

@[simp] theorem HashMap.mem_keys_addInt {map : HashMap} {addr key fd : Nat} :
    fd ∈ (map.addInt addr key).keys ↔ fd ∈ map.keys ∨ fd = key := by
  simp [HashMap.keys, HashMap.addInt]

/-- Each connection in a slot names that slot. -/
structure Inv (r : Reactor) : Prop where
  current_lt : r.current < r.size
  index_lt : ∀ fd, (r.connections fd).timewheelIndex < r.size
  slot : ∀ i, ∀ fd ∈ (r.wheel i).keys, (r.connections fd).timewheelIndex = i
  ok : ∀ i, (r.wheel i).Ok r.addr

structure Tracks (r : Reactor) (idle : Idle) : Prop where
  removed : ∀ fd, idle.removed fd = (r.connections fd).removed
  member : ∀ fd, InWheel r fd ↔ idle.forwards fd ≠ none
  phase : ∀ fd k, idle.forwards fd = some k →
    (r.connections fd).timewheelIndex + k + 1 ≡ r.current [MOD r.size]

variable {r : Reactor}

theorem Inv.inOneSlot (inv : Inv r) {fd : Nat} (mem : InWheel r fd) : InOneSlot r fd := by
  refine ⟨inv.index_lt fd, fun i => ?_⟩
  split
  · rename_i same
    rw [same]
    exact List.count_eq_one_of_mem (inv.ok _).keys mem
  · rename_i other
    rw [List.count_eq_zero]
    exact fun mem => other (inv.slot i fd mem).symm

theorem InOneSlot.inWheel {fd : Nat} (one : InOneSlot r fd) : InWheel r fd := by
  have count := one.2 (r.connections fd).timewheelIndex
  rw [if_pos rfl] at count
  exact List.count_pos_iff.mp (count ▸ Nat.one_pos)

theorem Inv.not_mem (inv : Inv r) {fd : Nat} (absent : ¬ InWheel r fd) (i : Nat) :
    fd ∉ (r.wheel i).keys := by
  intro mem
  have index := inv.slot i fd mem
  exact absent (by rw [InWheel, index]; exact mem)

theorem Inv.new {size : Nat} (positive : 0 < size) : Inv (.new size) :=
  ⟨positive, fun _ => positive,
    fun i fd mem => by simp [Reactor.new, HashMap.new, HashMap.keys] at mem,
    fun _ => HashMap.Ok.new⟩

theorem Tracks.new {size : Nat} : Tracks (.new size) .new :=
  ⟨fun _ => rfl, fun fd => by simp [InWheel, Reactor.new, HashMap.new, HashMap.keys, Idle.new],
    fun fd k here => by simp [Idle.new] at here⟩

theorem newIndex_lt (inv : Inv r) : r.newIndex < r.size := by
  have := inv.current_lt
  unfold Reactor.newIndex
  split <;> omega

theorem newIndex_phase (inv : Inv r) : r.newIndex + 1 ≡ r.current [MOD r.size] := by
  have := inv.current_lt
  unfold Reactor.newIndex
  split
  · rename_i zero
    have whole : r.size - 1 + 1 = r.size := by omega
    rw [whole, zero]
    simp [Nat.ModEq]
  · rename_i nonzero
    rw [Nat.sub_add_cancel (by omega)]

theorem Tracks.due_iff {idle : Idle} (inv : Inv r) (tracks : Tracks r idle)
    (fd : Nat) : fd ∈ (r.wheel r.current).keys ↔ idle.Due r.size fd := by
  constructor
  · intro mem
    have index := inv.slot _ fd mem
    have member : InWheel r fd := by
      rw [InWheel, index]
      exact mem
    obtain ⟨k, here⟩ := Option.ne_none_iff_exists'.mp ((tracks.member fd).mp member)
    refine ⟨k, here, ?_⟩
    have phase := tracks.phase fd k here
    rw [index, Nat.add_assoc] at phase
    exact (Nat.modEq_zero_iff_dvd.mp (Nat.ModEq.add_left_cancel' r.current phase))
  · rintro ⟨k, here, divides⟩
    have phase := tracks.phase fd k here
    have same : (r.connections fd).timewheelIndex = r.current := by
      have zero : k + 1 ≡ 0 [MOD r.size] := Nat.modEq_zero_iff_dvd.mpr divides
      have both : (r.connections fd).timewheelIndex + (k + 1) ≡
          (r.connections fd).timewheelIndex + 0 [MOD r.size] := Nat.ModEq.add_left _ zero
      rw [← Nat.add_assoc] at both
      exact Nat.ModEq.eq_of_lt_of_lt (both.symm.trans phase) (inv.index_lt fd) inv.current_lt
    have member := (tracks.member fd).mpr (by simp [here])
    rw [InWheel, same] at member
    exact member

/-! ## A call about one connection -/

structure Moved (r r' : Reactor) (fd : Nat) (place : Option Nat) : Prop where
  size : r'.size = r.size
  current : r'.current = r.current
  others : ∀ fd', fd' ≠ fd → r'.connections fd' = r.connections fd'
  keys : ∀ i fd', fd' ∈ (r'.wheel i).keys ↔
    if fd' = fd then place = some i else fd' ∈ (r.wheel i).keys
  index_lt : (r'.connections fd).timewheelIndex < r.size
  named : ∀ i, place = some i → (r'.connections fd).timewheelIndex = i
  ok : ∀ i, (r'.wheel i).Ok r'.addr

namespace Moved

variable {r r' : Reactor} {fd : Nat} {place : Option Nat}

theorem inv (moved : Moved r r' fd place) (inv : Inv r) : Inv r' where
  current_lt := by
    rw [moved.current, moved.size]
    exact inv.current_lt
  index_lt fd' := by
    rw [moved.size]
    by_cases same : fd' = fd
    · exact same ▸ moved.index_lt
    · rw [moved.others fd' same]
      exact inv.index_lt fd'
  slot i fd' mem := by
    rw [moved.keys] at mem
    split at mem
    · rename_i same
      exact same ▸ moved.named i mem
    · rename_i other
      rw [moved.others fd' other]
      exact inv.slot i fd' mem
  ok := moved.ok

theorem tracks (moved : Moved r r' fd place) {idle idle' : Idle} (tracks : Tracks r idle)
    {since : Option Nat} (forwards : idle'.forwards = Function.update idle.forwards fd since)
    (removed : idle'.removed = Function.update idle.removed fd (r'.connections fd).removed)
    (member : place = none ↔ since = none)
    (phase : ∀ k i, since = some k → place = some i → i + k + 1 ≡ r.current [MOD r.size]) :
    Tracks r' idle' where
  removed fd' := by
    rw [removed]
    by_cases same : fd' = fd
    · rw [same, Function.update_self]
    · rw [Function.update_of_ne same, moved.others fd' same]
      exact tracks.removed fd'
  member fd' := by
    rw [InWheel, moved.keys, forwards]
    by_cases same : fd' = fd
    · rw [if_pos same, same, Function.update_self]
      cases place with
      | none => simp [member.mp rfl]
      | some i =>
        have here : since ≠ none := fun empty => nomatch member.mpr empty
        simp [here, moved.named i rfl]
    · rw [if_neg same, Function.update_of_ne same, moved.others fd' same]
      exact tracks.member fd'
  phase fd' k here := by
    rw [moved.current, moved.size]
    rw [forwards] at here
    by_cases same : fd' = fd
    · rw [same, Function.update_self] at here
      cases place with
      | none => exact absurd (member.mp rfl) (by simp [here])
      | some i =>
        rw [same, moved.named i rfl]
        exact phase k i here rfl
    · rw [Function.update_of_ne same] at here
      rw [moved.others fd' same]
      exact tracks.phase fd' k here

end Moved

section

variable {r : Reactor}

theorem moved_add (inv : Inv r) {fd : Nat} (absent : ¬ InWheel r fd) :
    Moved r (r.add fd) fd (some r.newIndex) where
  size := rfl
  current := rfl
  others fd' other := by simp [Reactor.add, Reactor.setConnection, Reactor.setSlot, other]
  keys i fd' := by
    have nowhere := inv.not_mem absent i
    by_cases here : i = r.newIndex
    · subst here
      by_cases same : fd' = fd
      · simp [Reactor.add, Reactor.setConnection, Reactor.setSlot, same]
      · simp [Reactor.add, Reactor.setConnection, Reactor.setSlot, same]
    · by_cases same : fd' = fd
      · simp [Reactor.add, Reactor.setConnection, Reactor.setSlot, same, here, nowhere,
          Ne.symm here]
      · simp [Reactor.add, Reactor.setConnection, Reactor.setSlot, same, here]
  index_lt := by
    simpa [Reactor.add, Reactor.setConnection, Reactor.setSlot] using newIndex_lt inv
  named i same := by
    cases same
    simp [Reactor.add, Reactor.setConnection, Reactor.setSlot]
  ok i := by
    by_cases here : i = r.newIndex
    · subst here
      simpa [Reactor.add, Reactor.setConnection, Reactor.setSlot] using
        (inv.ok r.newIndex).addInt (inv.not_mem absent _)
    · simpa [Reactor.add, Reactor.setConnection, Reactor.setSlot, here] using (inv.ok i).succ

theorem wheel_update (r : Reactor) (fd i : Nat) : (r.update fd).wheel i =
    if (r.connections fd).timewheelIndex = r.newIndex then r.wheel i
    else if i = (r.connections fd).timewheelIndex then (r.wheel i).delInt fd
    else if i = r.newIndex then (r.wheel i).addInt r.addr fd else r.wheel i := by
  by_cases stays : (r.connections fd).timewheelIndex = r.newIndex
  · by_cases here : i = r.newIndex
    · subst here
      simp [Reactor.update, Reactor.setConnection, Reactor.setSlot, stays,
        HashMap.delInt_addInt]
    · simp [Reactor.update, Reactor.setConnection, Reactor.setSlot, stays, here]
  · by_cases old : i = (r.connections fd).timewheelIndex
    · subst old
      simp [Reactor.update, Reactor.setConnection, Reactor.setSlot, stays]
    · by_cases here : i = r.newIndex
      · subst here
        simp [Reactor.update, Reactor.setConnection, Reactor.setSlot, stays, old]
      · simp [Reactor.update, Reactor.setConnection, Reactor.setSlot, stays, old, here]

theorem moved_update (inv : Inv r) {fd : Nat}
    (may : InWheel r fd ∨ (r.connections fd).timewheelIndex ≠ r.newIndex) :
    Moved r (r.update fd) fd (some r.newIndex) := by
  have notIn : ∀ i, i ≠ (r.connections fd).timewheelIndex → fd ∉ (r.wheel i).keys :=
    fun i other mem => other (inv.slot i fd mem).symm
  refine ⟨rfl, rfl, ?_, ?_, ?_, ?_, ?_⟩
  · intro fd' other
    simp [Reactor.update, Reactor.setConnection, Reactor.setSlot, other]
  · intro i fd'
    rw [wheel_update]
    by_cases stays : (r.connections fd).timewheelIndex = r.newIndex
    · rw [if_pos stays]
      have mem : InWheel r fd := may.resolve_right (not_not_intro stays)
      split
      · rename_i same
        rw [InWheel, stays] at mem
        constructor
        · intro here
          rw [← stays, inv.slot i fd (same ▸ here)]
        · intro here
          cases here
          exact same ▸ mem
      · rfl
    · rw [if_neg stays]
      by_cases old : i = (r.connections fd).timewheelIndex
      · rw [if_pos old, (inv.ok i).mem_keys_delInt]
        by_cases same : fd' = fd
        · have notNew : r.newIndex ≠ i := fun new => stays (by rw [← old, new])
          simp [same, notNew]
        · simp [same]
      · rw [if_neg old]
        by_cases here : i = r.newIndex
        · rw [if_pos here, HashMap.mem_keys_addInt]
          by_cases same : fd' = fd
          · simp [same, here]
          · simp [same]
        · rw [if_neg here]
          by_cases same : fd' = fd
          · simp [same, notIn i old, Ne.symm here]
          · simp [same]
  · simpa [Reactor.update, Reactor.setConnection, Reactor.setSlot] using newIndex_lt inv
  · intro i same
    cases same
    simp [Reactor.update, Reactor.setConnection, Reactor.setSlot]
  · intro i
    rw [wheel_update]
    change HashMap.Ok (r.addr + 1) _
    split
    · exact (inv.ok i).succ
    · rename_i moves
      split
      · exact ((inv.ok i).delInt fd).succ
      · rename_i old
        split
        · exact (inv.ok i).addInt (notIn i old)
        · exact (inv.ok i).succ

theorem wheel_remove (inv : Inv r) (fd : Nat) (i : Nat) :
    ((r.remove fd).wheel i).Ok r.addr ∧ ∀ fd', fd' ∈ ((r.remove fd).wheel i).keys ↔
      fd' ∈ (r.wheel i).keys ∧ fd' ≠ fd := by
  by_cases here : i = (r.connections fd).timewheelIndex
  · subst here
    have slot : (r.remove fd).wheel (r.connections fd).timewheelIndex =
        (r.wheel (r.connections fd).timewheelIndex).delInt fd := by
      simp [Reactor.remove, Reactor.setSlot]
    rw [slot]
    exact ⟨(inv.ok _).delInt fd, fun fd' => (inv.ok _).mem_keys_delInt⟩
  · have slot : (r.remove fd).wheel i = r.wheel i := by
      simp [Reactor.remove, Reactor.setSlot, here]
    rw [slot]
    refine ⟨inv.ok i, fun fd' => ⟨fun mem => ⟨mem, ?_⟩, And.left⟩⟩
    rintro rfl
    exact here (inv.slot i fd' mem).symm

theorem moved_remove (inv : Inv r) (fd : Nat) : Moved r (r.remove fd) fd none where
  size := rfl
  current := rfl
  others _ _ := rfl
  keys i fd' := by
    rw [(wheel_remove inv fd i).2 fd']
    by_cases same : fd' = fd <;> simp [same]
  index_lt := inv.index_lt fd
  named i same := nomatch same
  ok i := (wheel_remove inv fd i).1

theorem moved_close (inv : Inv r) (fd : Nat) : Moved r (r.close fd) fd none where
  size := rfl
  current := rfl
  others fd' other := by simp [Reactor.close, Reactor.setConnection, Reactor.remove,
    Reactor.setSlot, other]
  keys := (moved_remove inv fd).keys
  index_lt := by
    simpa [Reactor.close, Reactor.setConnection, Connection.zero] using
      Nat.lt_of_le_of_lt (Nat.zero_le _) inv.current_lt
  named i same := nomatch same
  ok := (moved_remove inv fd).ok

theorem moved_setRemoved (inv : Inv r) (fd : Nat) (removed : Bool) [Decidable (InWheel r fd)] :
    Moved r (r.setRemoved fd removed) fd
      (if InWheel r fd then some (r.connections fd).timewheelIndex else none) where
  size := rfl
  current := rfl
  others fd' other := by simp [Reactor.setRemoved, Reactor.setConnection, other]
  keys i fd' := by
    change fd' ∈ (r.wheel i).keys ↔ _
    by_cases same : fd' = fd
    · subst same
      rw [if_pos rfl]
      by_cases mem : InWheel r fd'
      · rw [if_pos mem, Option.some_inj]
        exact ⟨inv.slot i fd', fun here => here ▸ mem⟩
      · rw [if_neg mem]
        simp [inv.not_mem mem i]
    · rw [if_neg same]
  index_lt := by
    simpa [Reactor.setRemoved, Reactor.setConnection] using inv.index_lt fd
  named i same := by
    split at same
    · cases same
      simp [Reactor.setRemoved, Reactor.setConnection]
    · cases same
  ok := inv.ok

end

namespace Reactor

def markAll (r : Reactor) (fds : List Nat) : Reactor :=
  { r with
    connections := fun fd => if fd ∈ fds then mark (r.connections fd) else r.connections fd }

theorem mark_mark (conn : Connection) : mark (mark conn) = mark conn := rfl

theorem markAll_nil (r : Reactor) : r.markAll [] = r := by
  simp [markAll]

theorem setSlot_self (r : Reactor) (slot : Nat) : r.setSlot slot (r.wheel slot) = r := by
  simp [setSlot]

theorem visit_watched {r : Reactor} {fd : Nat} (watched : (r.connections fd).removed = false) :
    r.visit fd = r.setConnection fd (mark (r.connections fd)) := by
  simp [visit, watched]

theorem markAll_visit {r : Reactor} {slot : Nat} {map map' : HashMap} {fd : Nat} {fds : List Nat} :
    ((((r.setSlot slot map).setConnection fd (mark (r.connections fd))).setSlot slot map').markAll
      fds) = (r.setSlot slot map').markAll (fd :: fds) := by
  simp only [markAll, setSlot, setConnection, Function.update_idem, mk.injEq, true_and, and_true]
  funext fd'
  by_cases same : fd' = fd
  · subst same
    simp [mark_mark]
  · simp [same]

theorem sweep_watched {slot : Nat} {rest before : List Node} {node : Node} {r : Reactor}
    {fuel : Nat} (nodes : (r.wheel slot).nodes = before ++ node :: rest)
    (here : (r.wheel slot).iterator = some node.addr) (distinct : (r.wheel slot).addrs.Nodup)
    (watched : ∀ n ∈ rest, (r.connections n.keyInt).removed = false) (enough : rest.length < fuel) :
    sweep slot fuel r = .returned
      ((r.setSlot slot { r.wheel slot with iterator := none }).markAll (rest.map Node.keyInt))
      (rest.map Node.keyInt) := by
  induction rest generalizing before node r fuel with
  | nil =>
    obtain ⟨fuel, rfl⟩ := Nat.exists_eq_succ_of_ne_zero (Nat.ne_zero_of_lt enough)
    rw [sweep, HashMap.each_next nodes here distinct]
    simp [markAll_nil]
  | cons next rest ih =>
    obtain ⟨fuel, rfl⟩ := Nat.exists_eq_succ_of_ne_zero (Nat.ne_zero_of_lt enough)
    rw [sweep, HashMap.each_next nodes here distinct]
    have nextWatched := watched next (.head _)
    simp only
    rw [visit_watched (by simpa [setSlot] using nextWatched)]
    have onward := @ih (before ++ [node]) next
      ((r.setSlot slot { r.wheel slot with iterator := some next.addr }).setConnection next.keyInt
        (mark (r.connections next.keyInt))) fuel
      (by simp [setSlot, setConnection, nodes]) (by simp [setSlot, setConnection])
      (by simpa [setSlot, setConnection, HashMap.addrs] using distinct)
      (fun n mem => by
        by_cases same : n.keyInt = next.keyInt
        · simpa [setSlot, setConnection, same, mark] using nextWatched
        · simpa [setSlot, setConnection, same] using watched n (.tail _ mem))
      (by simpa using enough)
    change (sweep slot fuel ((r.setSlot slot { r.wheel slot with
      iterator := some next.addr }).setConnection next.keyInt
        (mark (r.connections next.keyInt)))).after next.keyInt = _
    rw [onward]
    simp only [Swept.after, List.map_cons]
    rw [← @markAll_visit r slot { r.wheel slot with iterator := some next.addr }]
    simp [setSlot, setConnection]

theorem visit_removed {r : Reactor} {slot : Nat} {node : Node}
    (removed : (r.connections node.keyInt).removed = true)
    (index : (r.connections node.keyInt).timewheelIndex = slot) (map : HashMap) :
    ((r.setSlot slot map).visit node.keyInt).wheel slot = map.delInt node.keyInt := by
  simp [visit, setSlot, setConnection, removed, close, remove, mark, index]

theorem sweep_freed {slot : Nat} {r : Reactor} {node : Node} {fuel : Nat} {map : HashMap}
    (keys : map.keys.Nodup) (addrs : map.addrs.Nodup) (mem : node ∈ map.nodes)
    (beside : ∃ other ∈ map.nodes, other ≠ node) (here : map.iterator = some node.addr)
    (removed : (r.connections node.keyInt).removed = true)
    (index : (r.connections node.keyInt).timewheelIndex = slot) :
    sweep slot (fuel + 1) ((r.setSlot slot map).visit node.keyInt) = .freed := by
  obtain ⟨other, otherMem, different⟩ := beside
  have remaining := HashMap.nodes_delInt keys node.keyInt
  have otherKey : other.keyInt ≠ node.keyInt := fun same =>
    different (List.inj_on_of_nodup_map keys otherMem mem same)
  have some_node : (map.delInt node.keyInt).nodes ≠ [] := by
    rw [remaining]
    exact List.ne_nil_of_mem (List.mem_filter.mpr ⟨otherMem, by simpa using otherKey⟩)
  have freed : node.addr ∉ (map.delInt node.keyInt).addrs := by
    rw [HashMap.addrs, remaining]
    intro inAddrs
    obtain ⟨n, nMem, same⟩ := List.mem_map.mp inAddrs
    obtain ⟨nMem, otherName⟩ := List.mem_filter.mp nMem
    obtain rfl : n = node := List.inj_on_of_nodup_map addrs nMem mem same
    simp at otherName
  rw [sweep, visit_removed removed index, HashMap.each_freed some_node here freed]

theorem sweep_unwatched {slot : Nat} {rest before : List Node} {node : Node} {r : Reactor}
    {fuel : Nat} (nodes : (r.wheel slot).nodes = before ++ node :: rest)
    (here : (r.wheel slot).iterator = some node.addr) (keys : (r.wheel slot).keys.Nodup)
    (addrs : (r.wheel slot).addrs.Nodup)
    (index : ∀ n ∈ (r.wheel slot).nodes, (r.connections n.keyInt).timewheelIndex = slot)
    (unwatched : ∃ n ∈ rest, (r.connections n.keyInt).removed = true)
    (enough : rest.length < fuel) : sweep slot fuel r = .freed := by
  induction rest generalizing before node r fuel with
  | nil =>
    obtain ⟨n, mem, -⟩ := unwatched
    cases mem
  | cons next rest ih =>
    obtain ⟨fuel, rfl⟩ := Nat.exists_eq_succ_of_ne_zero (Nat.ne_zero_of_lt enough)
    obtain ⟨fuel, rfl⟩ := Nat.exists_eq_succ_of_ne_zero (n := fuel) (by
      simp only [List.length_cons] at enough
      omega)
    rw [sweep, HashMap.each_next nodes here addrs]
    have nextMem : next ∈ (r.wheel slot).nodes := by simp [nodes]
    simp only
    cases nextRemoved : (r.connections next.keyInt).removed with
    | true =>
      have beside : ∃ other ∈ (r.wheel slot).nodes, other ≠ next := by
        refine ⟨node, by simp [nodes], ?_⟩
        rintro rfl
        exact absurd addrs (by simp [HashMap.addrs, nodes, List.nodup_append])
      rw [@sweep_freed slot r next fuel { r.wheel slot with iterator := some next.addr } keys addrs
        nextMem beside rfl nextRemoved (index next nextMem)]
      rfl
    | false =>
      rw [visit_watched (by simpa [setSlot] using nextRemoved)]
      obtain ⟨n, mem, removed⟩ := unwatched
      have later : n ∈ rest := by
        rcases List.mem_cons.mp mem with rfl | mem
        · rw [nextRemoved] at removed
          cases removed
        · exact mem
      have onward := @ih (before ++ [node]) next
        ((r.setSlot slot { r.wheel slot with iterator := some next.addr }).setConnection next.keyInt
          (mark (r.connections next.keyInt))) (fuel + 1)
        (by simp [setSlot, setConnection, nodes]) (by simp [setSlot, setConnection])
        (by simpa [setSlot, setConnection, HashMap.keys] using keys)
        (by simpa [setSlot, setConnection, HashMap.addrs] using addrs)
        (fun n mem => by
          have mem' : n ∈ (r.wheel slot).nodes := by
            simpa [setSlot, setConnection] using mem
          by_cases same : n.keyInt = next.keyInt
          · simpa [setSlot, setConnection, same, mark] using index next nextMem
          · simpa [setSlot, setConnection, same] using index n mem')
        ⟨n, later, by
          by_cases same : n.keyInt = next.keyInt
          · rw [same, nextRemoved] at removed
            cases removed
          · simpa [setSlot, setConnection, same] using removed⟩
        (by simpa using enough)
      change (sweep slot (fuel + 1) ((r.setSlot slot { r.wheel slot with
        iterator := some next.addr }).setConnection next.keyInt
          (mark (r.connections next.keyInt)))).after next.keyInt = _
      rw [onward]
      rfl

end Reactor

structure Forwarded (r r' : Reactor) : Prop where
  size : r'.size = r.size
  current : r'.current = r.advance.current
  keys : ∀ i fd, fd ∈ (r'.wheel i).keys ↔ fd ∈ (r.wheel i).keys ∧
    ¬ (fd ∈ (r.wheel r.current).keys ∧ (r.connections fd).removed = true)
  connections : ∀ fd, r'.connections fd =
    if fd ∈ (r.wheel r.current).keys then
      if (r.connections fd).removed then { Connection.zero with removed := true }
      else Reactor.mark (r.connections fd)
    else r.connections fd
  ok : ∀ i, (r'.wheel i).Ok r'.addr

theorem forward_empty {r : Reactor} (inv : Inv r) (empty : (r.wheel r.current).nodes = []) :
    r.forward = .returned r.advance (r.wheel r.current).keys ∧ Forwarded r r.advance := by
  have noKeys : (r.wheel r.current).keys = [] := by simp [HashMap.keys, empty]
  refine ⟨?_, rfl, rfl, ?_, ?_, inv.ok⟩
  · rw [Reactor.forward, Reactor.sweep, @HashMap.each_nil (r.advance.wheel r.current) empty]
    simp only
    rw [Reactor.setSlot_self, noKeys]
  · intro i fd
    simp [noKeys, Reactor.advance]
  · intro fd
    simp [noKeys, Reactor.advance]

theorem forward_watched {r : Reactor} (inv : Inv r) {first : Node} {rest : List Node}
    (nodes : (r.wheel r.current).nodes = first :: rest)
    (start : (r.wheel r.current).iterator = none)
    (watched : ∀ fd ∈ (r.wheel r.current).keys, (r.connections fd).removed = false) :
    r.forward = .returned
      ((r.advance.setSlot r.current { r.wheel r.current with iterator := none }).markAll
        (r.wheel r.current).keys) (r.wheel r.current).keys := by
  have nodeWatched : ∀ n ∈ first :: rest, (r.connections n.keyInt).removed = false := by
    intro n mem
    exact watched n.keyInt (List.mem_map_of_mem (nodes ▸ mem))
  have firstWatched := nodeWatched first (.head _)
  rw [Reactor.forward, Reactor.sweep,
    @HashMap.each_start (r.advance.wheel r.current) first rest nodes start]
  simp only
  rw [Reactor.visit_watched (by simpa [Reactor.setSlot, Reactor.advance] using firstWatched)]
  have onward := @Reactor.sweep_watched r.current rest [] first
    ((r.advance.setSlot r.current { r.wheel r.current with
      iterator := some first.addr }).setConnection first.keyInt
        (Reactor.mark (r.connections first.keyInt))) (r.wheel r.current).nodes.length
    (by simp [Reactor.setSlot, Reactor.setConnection, nodes])
    (by simp [Reactor.setSlot, Reactor.setConnection])
    (by simpa [Reactor.setSlot, Reactor.setConnection, HashMap.addrs] using
      (inv.ok r.current).addrs)
    (fun n mem => by
      by_cases same : n.keyInt = first.keyInt
      · simpa [Reactor.setSlot, Reactor.setConnection, same, Reactor.mark] using firstWatched
      · simpa [Reactor.setSlot, Reactor.setConnection, same, Reactor.advance] using
          nodeWatched n (.tail _ mem))
    (by simp [nodes])
  have keys : (r.wheel r.current).keys = first.keyInt :: rest.map Node.keyInt := by
    rw [HashMap.keys, nodes, List.map_cons]
  rw [keys, ← @Reactor.markAll_visit r.advance r.current
    { r.wheel r.current with iterator := some first.addr }]
  refine Eq.trans (congrArg (Swept.after first.keyInt) onward) ?_
  simp [Swept.after, Reactor.setSlot, Reactor.setConnection, Reactor.advance]

theorem forwarded_watched {r : Reactor} (inv : Inv r)
    (watched : ∀ fd ∈ (r.wheel r.current).keys, (r.connections fd).removed = false) :
    Forwarded r ((r.advance.setSlot r.current
      { r.wheel r.current with iterator := none }).markAll (r.wheel r.current).keys) := by
  have slot : ∀ i, ((r.advance.setSlot r.current
      { r.wheel r.current with iterator := none }).markAll (r.wheel r.current).keys).wheel i =
        if i = r.current then { r.wheel r.current with iterator := none } else r.wheel i := by
    intro i
    by_cases here : i = r.current
    · subst here
      simp [Reactor.markAll, Reactor.setSlot]
    · simp [Reactor.markAll, Reactor.setSlot, Reactor.advance, here]
  refine ⟨rfl, rfl, ?_, ?_, ?_⟩
  · intro i fd
    have stays : ¬ (fd ∈ (r.wheel r.current).keys ∧ (r.connections fd).removed = true) := by
      rintro ⟨mem, removed⟩
      rw [watched fd mem] at removed
      cases removed
    rw [slot]
    split
    · rename_i here
      subst here
      exact ⟨fun mem => ⟨mem, stays⟩, And.left⟩
    · exact ⟨fun mem => ⟨mem, stays⟩, And.left⟩
  · intro fd
    by_cases mem : fd ∈ (r.wheel r.current).keys
    · simp [Reactor.markAll, mem, watched fd mem, Reactor.setSlot, Reactor.advance]
    · simp [Reactor.markAll, mem, Reactor.setSlot, Reactor.advance]
  · intro i
    rw [slot]
    have ok := inv.ok r.current
    split
    · exact ⟨ok.keys, ok.addrs, ok.given, fun a here => nomatch here⟩
    · exact inv.ok i

theorem forward_alone {r : Reactor} (inv : Inv r) {node : Node}
    (nodes : (r.wheel r.current).nodes = [node]) (start : (r.wheel r.current).iterator = none)
    (removed : (r.connections node.keyInt).removed = true) :
    ∃ r', r.forward = .returned r' (r.wheel r.current).keys ∧ Forwarded r r' := by
  have keys : (r.wheel r.current).keys = [node.keyInt] := by simp [HashMap.keys, nodes]
  have index : (r.connections node.keyInt).timewheelIndex = r.current :=
    inv.slot r.current node.keyInt (by simp [keys])
  let visited := (r.advance.setSlot r.current
    { r.wheel r.current with iterator := some node.addr }).visit node.keyInt
  have slot : visited.wheel r.current = ⟨[], some node.addr⟩ := by
    have gone := @Reactor.visit_removed r.advance r.current node removed index
      { r.wheel r.current with iterator := some node.addr }
    rw [gone]
    simp [HashMap.delInt, nodes]
  have others : ∀ i, i ≠ r.current → visited.wheel i = r.wheel i := by
    intro i other
    simp [visited, Reactor.visit, Reactor.setSlot, Reactor.setConnection, Reactor.advance,
      removed, Reactor.close, Reactor.remove, Reactor.mark, index, other]
  have fields : visited.size = r.size ∧ visited.current = r.advance.current ∧
      visited.addr = r.addr := by
    simp [visited, Reactor.visit, Reactor.setSlot, Reactor.setConnection, Reactor.advance,
      removed, Reactor.close, Reactor.remove]
  refine ⟨visited, ?_, fields.1, fields.2.1, ?_, ?_, ?_⟩
  · rw [Reactor.forward, Reactor.sweep,
      @HashMap.each_start (r.advance.wheel r.current) node [] nodes start, nodes]
    change (Reactor.sweep r.current 1 visited).after node.keyInt = _
    rw [Reactor.sweep, HashMap.each_nil (by rw [slot])]
    simp only
    rw [Reactor.setSlot_self, keys]
    rfl
  · intro i fd
    by_cases here : i = r.current
    · subst here
      rw [slot, keys]
      simp only [HashMap.keys, List.map_nil, List.not_mem_nil, List.mem_singleton, false_iff]
      rintro ⟨rfl, stays⟩
      exact stays ⟨rfl, removed⟩
    · rw [others i here]
      refine ⟨fun mem => ⟨mem, ?_⟩, And.left⟩
      rintro ⟨inSlot, -⟩
      exact here ((inv.slot i fd mem).symm.trans (inv.slot _ fd inSlot))
  · intro fd
    rw [keys]
    by_cases same : fd = node.keyInt
    · subst same
      simp [visited, Reactor.visit, Reactor.setSlot, Reactor.setConnection, Reactor.advance,
        removed, Reactor.close, Reactor.remove]
    · simp [visited, Reactor.visit, Reactor.setSlot, Reactor.setConnection, Reactor.advance,
        removed, Reactor.close, Reactor.remove, same]
  · intro i
    rw [fields.2.2]
    by_cases here : i = r.current
    · subst here
      rw [slot]
      have given := (inv.ok r.current).given node.addr (by simp [HashMap.addrs, nodes])
      refine ⟨List.nodup_nil, List.nodup_nil, by simp [HashMap.addrs], ?_⟩
      intro a at_node
      cases at_node
      exact ⟨given, by simp [HashMap.addrs]⟩
    · rw [others i here]
      exact inv.ok i

theorem forward_returned {r : Reactor} (inv : Inv r) (allowed : Allowed r .forward) :
    ∃ r', r.forward = .returned r' (r.wheel r.current).keys ∧ Forwarded r r' := by
  cases nodes : (r.wheel r.current).nodes with
  | nil => exact ⟨r.advance, forward_empty inv nodes⟩
  | cons first rest =>
    rcases allowed with empty | ⟨start, watched | alone⟩
    · rw [nodes] at empty
      cases empty
    · exact ⟨_, forward_watched inv nodes start watched, forwarded_watched inv watched⟩
    · have single : rest = [] := by
        rw [nodes] at alone
        simpa using alone
      subst single
      cases removed : (r.connections first.keyInt).removed with
      | true => exact forward_alone inv nodes start removed
      | false =>
        have watched : ∀ fd ∈ (r.wheel r.current).keys, (r.connections fd).removed = false := by
          intro fd mem
          rw [HashMap.keys, nodes, List.map_singleton, List.mem_singleton] at mem
          exact mem ▸ removed
        exact ⟨_, forward_watched inv nodes start watched, forwarded_watched inv watched⟩

theorem forward_freed {r : Reactor} (inv : Inv r) (forbidden : ¬ Allowed r .forward) :
    r.forward = .freed := by
  simp only [Allowed, not_or, not_and, not_forall, Bool.not_eq_false] at forbidden
  obtain ⟨nonempty, others⟩ := forbidden
  have ok := inv.ok r.current
  cases iterator : (r.wheel r.current).iterator with
  | some a =>
    rw [Reactor.forward, Reactor.sweep, @HashMap.each_freed (r.advance.wheel r.current) a nonempty
      iterator (ok.iterator a iterator).2]
  | none =>
    obtain ⟨⟨fd, mem, removed⟩, notAlone⟩ := others iterator
    cases nodes : (r.wheel r.current).nodes with
    | nil => exact absurd nodes nonempty
    | cons first rest =>
      cases rest with
      | nil => exact absurd (by rw [nodes]; rfl) notAlone
      | cons second rest =>
        rw [Reactor.forward, Reactor.sweep,
          @HashMap.each_start (r.advance.wheel r.current) first (second :: rest) nodes iterator,
          nodes]
        simp only [List.length_cons]
        have index : ∀ n ∈ (r.wheel r.current).nodes,
            (r.connections n.keyInt).timewheelIndex = r.current :=
          fun n mem => inv.slot _ _ (List.mem_map_of_mem mem)
        cases firstRemoved : (r.connections first.keyInt).removed with
        | true =>
          have beside : ∃ other ∈ (r.wheel r.current).nodes, other ≠ first := by
            refine ⟨second, by simp [nodes], ?_⟩
            rintro rfl
            exact absurd ok.addrs (by simp [HashMap.addrs, nodes])
          exact congrArg (Swept.after first.keyInt)
            (@Reactor.sweep_freed r.current r.advance first (rest.length + 1)
              { r.wheel r.current with iterator := some first.addr } ok.keys ok.addrs
              (by simp [nodes]) beside rfl firstRemoved (index first (by simp [nodes])))
        | false =>
          rw [Reactor.visit_watched
            (by simpa [Reactor.setSlot, Reactor.advance] using firstRemoved)]
          have later : ∃ n ∈ second :: rest, (r.connections n.keyInt).removed = true := by
            obtain ⟨n, nMem, rfl⟩ := List.mem_map.mp mem
            rw [nodes] at nMem
            rcases List.mem_cons.mp nMem with rfl | nMem
            · rw [firstRemoved] at removed
              cases removed
            · exact ⟨n, nMem, removed⟩
          obtain ⟨n, nMem, nRemoved⟩ := later
          have onward := @Reactor.sweep_unwatched r.current (second :: rest) [] first
            ((r.advance.setSlot r.current { r.wheel r.current with
              iterator := some first.addr }).setConnection first.keyInt
                (Reactor.mark (r.connections first.keyInt))) (rest.length + 1 + 1)
            (by simp [Reactor.setSlot, Reactor.setConnection, nodes])
            (by simp [Reactor.setSlot, Reactor.setConnection])
            (by simpa [Reactor.setSlot, Reactor.setConnection, HashMap.keys] using ok.keys)
            (by simpa [Reactor.setSlot, Reactor.setConnection, HashMap.addrs] using ok.addrs)
            (fun other otherMem => by
              have otherMem' : other ∈ (r.wheel r.current).nodes := by
                simpa [Reactor.setSlot, Reactor.setConnection] using otherMem
              by_cases same : other.keyInt = first.keyInt
              · simpa [Reactor.setSlot, Reactor.setConnection, same, Reactor.mark] using
                  index first (by simp [nodes])
              · simpa [Reactor.setSlot, Reactor.setConnection, same, Reactor.advance] using
                  index other otherMem')
            ⟨n, nMem, by
              by_cases same : n.keyInt = first.keyInt
              · rw [same, firstRemoved] at nRemoved
                cases nRemoved
              · simpa [Reactor.setSlot, Reactor.setConnection, same, Reactor.advance] using
                  nRemoved⟩
            (by simp)
          exact congrArg (Swept.after first.keyInt) onward

namespace Forwarded

variable {r r' : Reactor} {idle : Idle}

theorem advance_current {r : Reactor} (inv : Inv r) :
    r.advance.current < r.size ∧ r.current + 1 ≡ r.advance.current [MOD r.size] := by
  have := inv.current_lt
  simp only [Reactor.advance]
  split
  · rename_i last
    refine ⟨by omega, ?_⟩
    have whole : r.current + 1 = r.size := by omega
    rw [whole]
    simp [Nat.ModEq]
  · exact ⟨by omega, Nat.ModEq.refl _⟩

theorem index_eq (forwarded : Forwarded r r') {fd : Nat}
    (stays : ¬ (fd ∈ (r.wheel r.current).keys ∧ (r.connections fd).removed = true)) :
    (r'.connections fd).timewheelIndex = (r.connections fd).timewheelIndex := by
  rw [forwarded.connections]
  split
  · rename_i mem
    rw [if_neg fun removed => stays ⟨mem, removed⟩]
    rfl
  · rfl

theorem inv (forwarded : Forwarded r r') (inv : Inv r) : Inv r' where
  current_lt := by
    rw [forwarded.current, forwarded.size]
    exact (advance_current inv).1
  index_lt fd := by
    rw [forwarded.size, forwarded.connections]
    split
    · split
      · exact Nat.lt_of_le_of_lt (Nat.zero_le _) inv.current_lt
      · exact inv.index_lt fd
    · exact inv.index_lt fd
  slot i fd mem := by
    obtain ⟨mem, stays⟩ := (forwarded.keys i fd).mp mem
    rw [forwarded.index_eq stays]
    exact inv.slot i fd mem
  ok := forwarded.ok

theorem tracks (forwarded : Forwarded r r') (inv : Inv r) (tracks : Tracks r idle) :
    Tracks r' (idle.step r.size .forward) where
  removed fd := by
    change idle.removed fd = _
    rw [tracks.removed, forwarded.connections]
    split
    · split
      · assumption
      · rfl
    · rfl
  member fd := by
    by_cases gone : fd ∈ (r.wheel r.current).keys ∧ (r.connections fd).removed = true
    · obtain ⟨k, here, divides⟩ := (tracks.due_iff inv fd).mp gone.1
      have away : ¬ InWheel r' fd := fun mem => ((forwarded.keys _ fd).mp mem).2 gone
      simp [Idle.step, here, divides, tracks.removed, gone.2, away]
    · rw [InWheel, forwarded.index_eq gone, forwarded.keys]
      have member := tracks.member fd
      rw [InWheel] at member
      rw [and_iff_left gone, member]
      cases here : idle.forwards fd with
      | none => simp [Idle.step, here]
      | some k =>
        have notBoth : ¬ (r.size ∣ k + 1 ∧ idle.removed fd = true) := by
          rintro ⟨divides, removed⟩
          rw [tracks.removed] at removed
          exact gone ⟨(tracks.due_iff inv fd).mpr ⟨k, here, divides⟩, removed⟩
        simp [Idle.step, here, notBoth]
  phase fd k here := by
    rw [forwarded.size, forwarded.current]
    simp only [Idle.step, Option.bind_eq_some_iff] at here
    obtain ⟨k', here', same⟩ := here
    split at same
    · cases same
    · rename_i notBoth
      cases same
      have stays : ¬ (fd ∈ (r.wheel r.current).keys ∧ (r.connections fd).removed = true) := by
        rintro ⟨mem, removed⟩
        obtain ⟨k, known, divides⟩ := (tracks.due_iff inv fd).mp mem
        rw [here'] at known
        cases known
        exact notBoth ⟨divides, by rw [tracks.removed]; exact removed⟩
      rw [forwarded.index_eq stays]
      exact ((tracks.phase fd k' here').add_right 1).trans (advance_current inv).2

theorem sweeps (forwarded : Forwarded r r') (inv : Inv r) (tracks : Tracks r idle) :
    Sweeps r idle r' (r.wheel r.current).keys where
  slot := rfl
  once := (inv.ok _).keys
  due := tracks.due_iff inv
  marked fd mem := by rw [forwarded.connections, if_pos mem]
  others fd away := by rw [forwarded.connections, if_neg away]

end Forwarded

theorem Tracks.removed_eq {r r' : Reactor} {idle : Idle} (tracks : Tracks r idle) {fd : Nat}
    (same : (r'.connections fd).removed = (r.connections fd).removed) :
    idle.removed = Function.update idle.removed fd (r'.connections fd).removed := by
  rw [same, ← tracks.removed, Function.update_eq_self]

theorem step_allowed {r : Reactor} {idle : Idle} {step : Step} (inv : Inv r)
    (tracks : Tracks r idle) (allowed : Allowed r step) :
    ∃ r' visited, r.step step = .returned r' visited ∧ Inv r' ∧
      Tracks r' (idle.step r.size step) ∧ (step = .forward → Sweeps r idle r' visited) := by
  have fresh : ∀ k i, some 0 = some k → some r.newIndex = some i →
      i + k + 1 ≡ r.current [MOD r.size] := by
    intro k i zero here
    cases zero
    cases here
    exact newIndex_phase inv
  cases step with
  | add fd =>
    have moved := moved_add inv allowed
    refine ⟨_, _, rfl, moved.inv inv, moved.tracks tracks rfl ?_ (by simp) fresh, nofun⟩
    exact tracks.removed_eq (by simp [Reactor.add, Reactor.setConnection, Reactor.setSlot])
  | update fd =>
    have moved := moved_update inv allowed
    refine ⟨_, _, rfl, moved.inv inv, moved.tracks tracks rfl ?_ (by simp) fresh, nofun⟩
    exact tracks.removed_eq (by simp [Reactor.update, Reactor.setConnection, Reactor.setSlot])
  | remove fd =>
    have moved := moved_remove inv fd
    refine ⟨_, _, rfl, moved.inv inv, moved.tracks tracks rfl ?_ (by simp) nofun, nofun⟩
    exact tracks.removed_eq rfl
  | close fd =>
    have moved := moved_close inv fd
    refine ⟨_, _, rfl, moved.inv inv, moved.tracks tracks rfl ?_ (by simp) nofun, nofun⟩
    simp [Idle.step, Reactor.close, Reactor.setConnection]
  | setRemoved fd removed =>
    classical
    have moved := moved_setRemoved inv fd removed
    refine ⟨_, _, rfl, moved.inv inv, @Moved.tracks _ _ _ _ moved _ _ tracks
      (idle.forwards fd) ?_ ?_ ?_ ?_, nofun⟩
    · exact (Function.update_eq_self fd idle.forwards).symm
    · simp [Idle.step, Reactor.setRemoved, Reactor.setConnection]
    · have member := tracks.member fd
      by_cases here : InWheel r fd
      · simp [here, member.mp here]
      · simp [here, not_not.mp (fun known => here (member.mpr known))]
    · intro k i known here
      split at here
      · cases here
        exact tracks.phase fd k known
      · cases here
  | forward =>
    obtain ⟨r', returned, forwarded⟩ := forward_returned inv allowed
    exact ⟨r', _, returned, forwarded.inv inv, forwarded.tracks inv tracks,
      fun _ => forwarded.sweeps inv tracks⟩

theorem step_forbidden {r : Reactor} {idle : Idle} {step : Step} (inv : Inv r)
    (forbidden : ¬ Allowed r step) : r.step step = .freed ∨ ∃ r' fd, r.step step = .returned r' [] ∧
      (idle.step r.size step).forwards fd ≠ none ∧ ¬ InOneSlot r' fd := by
  cases step with
  | add fd =>
    refine .inr ⟨r.add fd, fd, rfl, by simp [Idle.step], ?_⟩
    have present : InWheel r fd := not_not.mp forbidden
    intro one
    have index : ((r.add fd).connections fd).timewheelIndex = r.newIndex := by
      simp [Reactor.add, Reactor.setConnection, Reactor.setSlot]
    have count := one.2 (r.connections fd).timewheelIndex
    rw [index] at count
    have before : 0 < (r.wheel (r.connections fd).timewheelIndex).keys.count fd :=
      List.count_pos_iff.mpr present
    by_cases stays : (r.connections fd).timewheelIndex = r.newIndex
    · have twice : ((r.add fd).wheel r.newIndex).keys = (r.wheel r.newIndex).keys ++ [fd] := by
        simp [Reactor.add, Reactor.setConnection, Reactor.setSlot, HashMap.keys, HashMap.addInt]
      rw [stays] at before
      rw [stays, if_pos rfl, twice, List.count_append, List.count_singleton_self] at count
      omega
    · have same : (r.add fd).wheel (r.connections fd).timewheelIndex =
          r.wheel (r.connections fd).timewheelIndex := by
        simp [Reactor.add, Reactor.setConnection, Reactor.setSlot, stays]
      rw [if_neg stays, same] at count
      omega
  | update fd =>
    refine .inr ⟨r.update fd, fd, rfl, by simp [Idle.step], ?_⟩
    obtain ⟨absent, stays⟩ := not_or.mp forbidden
    rw [not_not] at stays
    intro one
    have present := one.inWheel
    rw [InWheel, wheel_update, if_pos stays] at present
    exact inv.not_mem absent _ present
  | remove fd => exact absurd trivial forbidden
  | close fd => exact absurd trivial forbidden
  | setRemoved fd removed => exact absurd trivial forbidden
  | forward => exact .inl (forward_freed inv forbidden)

theorem right_iff_of_inv {r : Reactor} {idle : Idle} (inv : Inv r) (tracks : Tracks r idle)
    (steps : List Step) : Right r idle steps ↔ AllAllowed r steps := by
  induction steps generalizing r idle with
  | nil =>
    refine iff_of_true (fun fd known => ?_) trivial
    exact inv.inOneSlot ((tracks.member fd).mpr known)
  | cons step steps ih =>
    by_cases allowed : Allowed r step
    · obtain ⟨r', visited, returned, inv', tracks', sweeps⟩ := step_allowed inv tracks allowed
      constructor
      · rintro ⟨-, r'', visited', returned', -, rest⟩
        refine ⟨allowed, fun other fds same => ?_⟩
        rw [returned] at same returned'
        cases same
        cases returned'
        exact (ih inv' tracks').mp rest
      · rintro ⟨-, rest⟩
        refine ⟨fun fd known => inv.inOneSlot ((tracks.member fd).mpr known), r', visited,
          returned, sweeps, (ih inv' tracks').mpr (rest r' visited returned)⟩
    · refine iff_of_false ?_ fun all => allowed all.1
      rintro ⟨-, r', visited, returned, -, rest⟩
      rcases @step_forbidden r idle step inv allowed with freed |
        ⟨r'', fd, other, known, bad⟩
      · rw [freed] at returned
        cases returned
      · rw [other] at returned
        cases returned
        cases steps with
        | nil => exact bad (rest fd known)
        | cons next steps => exact bad (rest.1 fd known)

/-- In every run from a new wheel of any size the connections stand in one slot each and the
forwards visit the connections that are due, once each and without a freed node, exactly if
every step is allowed. -/
theorem right_iff {size : Nat} (positive : 0 < size) (steps : List Step) :
    Right (.new size) .new steps ↔ AllAllowed (.new size) steps :=
  right_iff_of_inv (Inv.new positive) Tracks.new steps

theorem right_update : Right (.new 2) .new [.add 3, .forward, .update 3, .forward, .forward] := by
  refine (right_iff (by decide) _).mpr ⟨?_, ?_⟩
  · simp [Allowed, InWheel, Reactor.new, HashMap.new, HashMap.keys]
  · rintro _ _ ⟨⟩
    refine ⟨.inl rfl, ?_⟩
    rintro _ _ ⟨⟩
    refine ⟨.inl (by unfold InWheel; decide), ?_⟩
    rintro _ _ ⟨⟩
    refine ⟨.inl rfl, ?_⟩
    rintro _ _ ⟨⟩
    refine ⟨.inr ⟨rfl, .inr rfl⟩, ?_⟩
    rintro _ _ ⟨⟩
    trivial

/-- Two connections in a slot, of which one was taken from the events: the forward that closes
it goes on from the node that was freed. -/
theorem not_right : ¬ Right (.new 1) .new [.add 3, .add 4, .setRemoved 3 true, .forward] := by
  rintro ⟨-, _, _, ⟨⟩, -, -, _, _, ⟨⟩, -, -, _, _, ⟨⟩, -, -, _, _, freed, -⟩
  have read : ((((Reactor.new 1).add 3).add 4).setRemoved 3 true).step .forward = .freed := rfl
  exact nomatch read.symm.trans freed

end PhpExts.Swoole.TimeWheel
