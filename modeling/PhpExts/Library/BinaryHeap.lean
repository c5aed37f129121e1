import Mathlib

/-!
# Binary heaps with back-pointers

An array is filled from index one, and the index of every element is kept beside it.
A sift moves a hole up or down the tree until the element waiting for it fits.
`Sifting` says what the array holds while there is a hole, and `UpReady` and
`DownReady` how far it is in order; each is kept by a move of the hole, and closing
the hole where the sift stops gives an array in order (`siftUp_sound`,
`siftDown_sound`).
-/

namespace PhpExts.Library.BinaryHeap

variable {α : Type}

/-! ## The order -/

/-- `before x y` says that `x` has to be above `y`. Elements of which neither has to
be above the other are level. -/
structure Ranking (before : α → α → Prop) : Prop where
  asymm : ∀ {x y}, before x y → ¬ before y x
  negTrans : ∀ {x y z}, ¬ before x y → ¬ before y z → ¬ before x z

namespace Ranking

variable {before : α → α → Prop} {x y z : α}

theorem irrefl (ranking : Ranking before) (x : α) : ¬ before x x :=
  fun above => ranking.asymm above above

theorem not_before_of_before (ranking : Ranking before) (above : before x y)
    (level : ¬ before z y) : ¬ before z x :=
  fun higher => ranking.negTrans (ranking.asymm higher) level above

end Ranking

/-- An array, and the index kept for every element. -/
structure Slots (α : Type) where
  slot : Nat → α
  place : α → Nat

namespace Slots

/-- The elements at the indices from one below `n`. -/
def contents (slots : Slots α) (n : Nat) : List α := (List.range' 1 (n - 1)).map slots.slot

variable {slots : Slots α}

theorem mem_contents {n : Nat} {x : α} :
    x ∈ slots.contents n ↔ ∃ i, 1 ≤ i ∧ i < n ∧ slots.slot i = x := by
  simp only [contents, List.mem_map, List.mem_range'_1]
  constructor
  · rintro ⟨i, ⟨low, high⟩, same⟩
    exact ⟨i, low, by omega, same⟩
  · rintro ⟨i, low, high, same⟩
    exact ⟨i, ⟨low, by omega⟩, same⟩

theorem length_contents {n : Nat} : (slots.contents n).length = n - 1 := by
  simp [contents]

/-- Every element's index is kept. -/
def Linked (slots : Slots α) (n : Nat) : Prop :=
  ∀ i, 1 ≤ i → i < n → slots.place (slots.slot i) = i

theorem Linked.nodup {n : Nat} (linked : slots.Linked n) : (slots.contents n).Nodup := by
  refine List.Nodup.map_on (fun i mem j member' same => ?_) List.nodup_range'
  obtain ⟨low, high⟩ := List.mem_range'_1.mp mem
  obtain ⟨low', high'⟩ := List.mem_range'_1.mp member'
  rw [← linked i low (by omega), same, linked j low' (by omega)]

variable [DecidableEq α]

/-- Put an element at an index, and keep the index. -/
def put (slots : Slots α) (i : Nat) (x : α) : Slots α :=
  ⟨Function.update slots.slot i x, Function.update slots.place x i⟩

@[simp] theorem slot_put_self {i : Nat} {x : α} : (slots.put i x).slot i = x := by simp [put]

theorem slot_put {i j : Nat} {x : α} (other : j ≠ i) :
    (slots.put i x).slot j = slots.slot j := by simp [put, other]

@[simp] theorem place_put_self {i : Nat} {x : α} : (slots.put i x).place x = i := by simp [put]

theorem place_put {i : Nat} {x y : α} (other : y ≠ x) :
    (slots.put i x).place y = slots.place y := by simp [put, other]

end Slots

variable [DecidableEq α] (before : α → α → Prop) [DecidableRel before]

/-- No element has to be above its parent. -/
def Ordered (slots : Slots α) (n : Nat) : Prop :=
  ∀ i, 1 < i → i < n → ¬ before (slots.slot i) (slots.slot (i / 2))

/-- Move the hole up while the element has to be above the hole's parent. -/
def siftUp (x : α) : Nat → Nat → Slots α → Slots α
  | 0, i, slots => slots.put i x
  | fuel + 1, i, slots =>
    if 1 < i ∧ before x (slots.slot (i / 2)) then
      siftUp x fuel (i / 2) (slots.put i (slots.slot (i / 2)))
    else slots.put i x

/-- The child of `i` that has to be above the other, if there is a child. -/
def topChild (slots : Slots α) (n i : Nat) : Option Nat :=
  if n ≤ 2 * i then none
  else if 2 * i + 1 < n ∧ before (slots.slot (2 * i + 1)) (slots.slot (2 * i)) then some (2 * i + 1)
  else some (2 * i)

/-- Move the hole down while a child has to be above the element. -/
def siftDown (x : α) (n : Nat) : Nat → Nat → Slots α → Slots α
  | 0, i, slots => slots.put i x
  | fuel + 1, i, slots =>
    match topChild before slots n i with
    | none => slots.put i x
    | some c =>
      if before (slots.slot c) x then siftDown x n fuel c (slots.put i (slots.slot c))
      else slots.put i x

variable {before} {slots : Slots α} {n p c : Nat} {x : α} {live : α → Prop}

omit [DecidableEq α] in
theorem topChild_spec {i : Nat} (found : topChild before slots n i = some c) :
    c / 2 = i ∧ c < n ∧ 2 * i ≤ c := by
  unfold topChild at found
  split at found
  · cases found
  · split at found <;> cases found <;> omega

omit [DecidableEq α] in
theorem topChild_top (ranking : Ranking before) {i : Nat}
    (found : topChild before slots n i = some c) (j : Nat) (child : j / 2 = i) (inside : j < n) :
    ¬ before (slots.slot j) (slots.slot c) := by
  have either : j = 2 * i ∨ j = 2 * i + 1 := by omega
  unfold topChild at found
  split at found
  · cases found
  · split at found
    · rename_i right
      cases found
      rcases either with rfl | rfl
      · exact ranking.asymm right.2
      · exact ranking.irrefl _
    · rename_i left
      cases found
      rcases either with rfl | rfl
      · exact ranking.irrefl _
      · exact fun higher => left ⟨inside, higher⟩

/-! ## What the array holds -/

/-- The array holds the elements of `live`, with `x` waiting for the hole at `p`. -/
structure Sifting (slots : Slots α) (n p : Nat) (x : α) (live : α → Prop) : Prop where
  hole : 1 ≤ p ∧ p < n
  place : ∀ i, 1 ≤ i → i < n → i ≠ p → slots.place (slots.slot i) = i
  other : ∀ i, 1 ≤ i → i < n → i ≠ p → slots.slot i ≠ x
  content : ∀ y, live y ↔ y = x ∨ ∃ i, 1 ≤ i ∧ i < n ∧ i ≠ p ∧ slots.slot i = y

theorem Sifting.move (sifting : Sifting slots n p x live) (low : 1 ≤ c) (high : c < n)
    (apart : c ≠ p) : Sifting (slots.put p (slots.slot c)) n c x live where
  hole := ⟨low, high⟩
  place := fun i low' high' other => by
    by_cases here : i = p
    · rw [here, Slots.slot_put_self, Slots.place_put_self]
    · have there := sifting.place i low' high' here
      rw [Slots.slot_put here, Slots.place_put, there]
      intro same
      rw [same, sifting.place c low high apart] at there
      exact other there.symm
  other := fun i low' high' other => by
    by_cases here : i = p
    · rw [here, Slots.slot_put_self]
      exact sifting.other c low high apart
    · rw [Slots.slot_put here]
      exact sifting.other i low' high' here
  content := fun y => by
    rw [sifting.content y]
    refine or_congr_right ⟨?_, ?_⟩
    · rintro ⟨i, low', high', other, same⟩
      by_cases there : i = c
      · exact ⟨p, sifting.hole.1, sifting.hole.2, Ne.symm apart, by
          rw [Slots.slot_put_self, ← there, same]⟩
      · exact ⟨i, low', high', there, by rw [Slots.slot_put other, same]⟩
    · rintro ⟨i, low', high', other, same⟩
      by_cases here : i = p
      · rw [here, Slots.slot_put_self] at same
        exact ⟨c, low, high, apart, same⟩
      · rw [Slots.slot_put here] at same
        exact ⟨i, low', high', here, same⟩

theorem Sifting.linked (sifting : Sifting slots n p x live) : (slots.put p x).Linked n := by
  intro i low high
  by_cases here : i = p
  · rw [here, Slots.slot_put_self, Slots.place_put_self]
  · rw [Slots.slot_put here, Slots.place_put (sifting.other i low high here)]
    exact sifting.place i low high here

theorem Sifting.mem_contents (sifting : Sifting slots n p x live) (y : α) :
    y ∈ (slots.put p x).contents n ↔ live y := by
  rw [Slots.mem_contents, sifting.content y]
  constructor
  · rintro ⟨i, low, high, same⟩
    by_cases here : i = p
    · rw [here, Slots.slot_put_self] at same
      exact .inl same.symm
    · rw [Slots.slot_put here] at same
      exact .inr ⟨i, low, high, here, same⟩
  · rintro (rfl | ⟨i, low, high, other, same⟩)
    · exact ⟨p, sifting.hole.1, sifting.hole.2, Slots.slot_put_self⟩
    · exact ⟨i, low, high, by rw [Slots.slot_put other, same]⟩

/-- An array whose indices are kept and that is in order, and holds the elements of
`live`. -/
structure Sound (before : α → α → Prop) (slots : Slots α) (n : Nat) (live : α → Prop) : Prop where
  ordered : Ordered before slots n
  linked : slots.Linked n
  content : ∀ y, y ∈ slots.contents n ↔ live y

omit [DecidableEq α] in
theorem Sifting.congr {t : Slots α} (sifting : Sifting slots n p x live)
    (same : ∀ i, i ≠ p → t.slot i = slots.slot i) (place : t.place = slots.place) :
    Sifting t n p x live where
  hole := sifting.hole
  place := fun i low high other => by rw [same i other, place, sifting.place i low high other]
  other := fun i low high other => by rw [same i other]; exact sifting.other i low high other
  content := fun y => by
    rw [sifting.content y]
    refine or_congr_right ⟨?_, ?_⟩
    · rintro ⟨i, low, high, other, found⟩
      exact ⟨i, low, high, other, by rw [same i other, found]⟩
    · rintro ⟨i, low, high, other, found⟩
      exact ⟨i, low, high, other, by rw [← same i other, found]⟩

omit [DecidableEq α] [DecidableRel before] in
theorem Sound.congr {before' : α → α → Prop} (sound : Sound before slots n live)
    (same : ∀ y z, live y → live z → (before' y z ↔ before y z)) : Sound before' slots n live where
  ordered := fun i low high => by
    have held : ∀ j, 1 ≤ j → j < n → live (slots.slot j) := fun j low high =>
      (sound.content _).mp (Slots.mem_contents.mpr ⟨j, low, high, rfl⟩)
    rw [same _ _ (held i (by omega) high) (held (i / 2) (by omega) (by omega))]
    exact sound.ordered i low high
  linked := sound.linked
  content := sound.content

/-! ## Moving the hole up -/

/-- The pairs off the hole are in order, the hole's children are not above its parent,
and they are not above `x`. -/
structure UpReady (before : α → α → Prop) (slots : Slots α) (n p : Nat) (x : α) : Prop where
  off : ∀ i, 1 < i → i < n → i ≠ p → i / 2 ≠ p → ¬ before (slots.slot i) (slots.slot (i / 2))
  grand : 1 < p → ∀ i, 1 < i → i < n → i / 2 = p → ¬ before (slots.slot i) (slots.slot (p / 2))
  below : ∀ i, 1 < i → i < n → i / 2 = p → ¬ before (slots.slot i) x

omit [DecidableEq α] [DecidableRel before] in
theorem UpReady.congr {t : Slots α} (ready : UpReady before slots n p x)
    (same : ∀ i, i ≠ p → t.slot i = slots.slot i) : UpReady before t n p x where
  off := fun i low high other above => by
    rw [same i other, same _ above]
    exact ready.off i low high other above
  grand := fun inner i low high under => by
    rw [same i (by omega), same _ (by omega)]
    exact ready.grand inner i low high under
  below := fun i low high under => by
    rw [same i (by omega)]
    exact ready.below i low high under

omit [DecidableRel before] in
theorem UpReady.move (ranking : Ranking before) (ready : UpReady before slots n p x)
    (inner : 1 < p) (inside : p < n) (higher : before x (slots.slot (p / 2))) :
    UpReady before (slots.put p (slots.slot (p / 2))) n (p / 2) x where
  off := fun i low high other above => by
    have apart : i ≠ p := fun same => above (by rw [same])
    rw [Slots.slot_put apart]
    by_cases child : i / 2 = p
    · rw [child, Slots.slot_put_self]
      exact ready.grand inner i low high child
    · rw [Slots.slot_put child]
      exact ready.off i low high apart child
  grand := fun inner' i low high child => by
    have top : ¬ before (slots.slot (p / 2)) (slots.slot (p / 2 / 2)) :=
      ready.off (p / 2) inner' (by omega) (by omega) (by omega)
    rw [Slots.slot_put (show p / 2 / 2 ≠ p by omega)]
    by_cases here : i = p
    · rw [here, Slots.slot_put_self]
      exact top
    · rw [Slots.slot_put here]
      have sibling := ready.off i low high here (by omega)
      rw [child] at sibling
      exact ranking.negTrans sibling top
  below := fun i low high child => by
    by_cases here : i = p
    · rw [here, Slots.slot_put_self]
      exact ranking.asymm higher
    · rw [Slots.slot_put here]
      have sibling := ready.off i low high here (by omega)
      rw [child] at sibling
      exact ranking.not_before_of_before higher sibling

omit [DecidableRel before] in
theorem UpReady.ordered (ready : UpReady before slots n p x)
    (stop : 1 < p → ¬ before x (slots.slot (p / 2))) : Ordered before (slots.put p x) n := by
  intro i low high
  by_cases here : i = p
  · subst here
    rw [Slots.slot_put_self, Slots.slot_put (show i / 2 ≠ i by omega)]
    exact stop low
  · rw [Slots.slot_put here]
    by_cases child : i / 2 = p
    · rw [child, Slots.slot_put_self]
      exact ready.below i low high child
    · rw [Slots.slot_put child]
      exact ready.off i low high here child

theorem siftUp_sound (ranking : Ranking before) (fuel : Nat) (enough : p ≤ fuel)
    (sifting : Sifting slots n p x live) (ready : UpReady before slots n p x) :
    Sound before (siftUp before x fuel p slots) n live := by
  induction fuel generalizing p slots with
  | zero => exact absurd sifting.hole.1 (by omega)
  | succ fuel ih =>
    have hole := sifting.hole
    rw [siftUp]
    split
    · rename_i higher
      exact ih (by omega) (sifting.move (by omega) (by omega) (by omega))
        (ready.move ranking higher.1 hole.2 higher.2)
    · rename_i stop
      exact ⟨ready.ordered fun inner above => stop ⟨inner, above⟩, sifting.linked,
        sifting.mem_contents⟩

/-! ## Moving the hole down -/

/-- The pairs off the hole are in order, and neither `x` nor the hole's children are
above its parent. -/
structure DownReady (before : α → α → Prop) (slots : Slots α) (n p : Nat) (x : α) : Prop where
  off : ∀ i, 1 < i → i < n → i ≠ p → i / 2 ≠ p → ¬ before (slots.slot i) (slots.slot (i / 2))
  grand : 1 < p → ∀ i, 1 < i → i < n → i / 2 = p → ¬ before (slots.slot i) (slots.slot (p / 2))
  above : 1 < p → ¬ before x (slots.slot (p / 2))

omit [DecidableEq α] [DecidableRel before] in
theorem DownReady.congr {t : Slots α} (ready : DownReady before slots n p x)
    (same : ∀ i, i ≠ p → t.slot i = slots.slot i) : DownReady before t n p x where
  off := fun i low high other above => by
    rw [same i other, same _ above]
    exact ready.off i low high other above
  grand := fun inner i low high under => by
    rw [same i (by omega), same _ (by omega)]
    exact ready.grand inner i low high under
  above := fun inner => by
    rw [same _ (by omega)]
    exact ready.above inner

theorem DownReady.move (ranking : Ranking before) (ready : DownReady before slots n p x)
    (positive : 1 ≤ p) (child : topChild before slots n p = some c)
    (higher : before (slots.slot c) x) : DownReady before (slots.put p (slots.slot c)) n c x where
  off := fun i low high other above => by
    obtain ⟨half, inside, double⟩ := topChild_spec child
    by_cases here : i = p
    · subst here
      rw [Slots.slot_put_self, Slots.slot_put (show i / 2 ≠ i by omega)]
      exact ready.grand low c (by omega) inside half
    · rw [Slots.slot_put here]
      by_cases sibling : i / 2 = p
      · rw [sibling, Slots.slot_put_self]
        exact topChild_top ranking child i sibling high
      · rw [Slots.slot_put sibling]
        exact ready.off i low high here sibling
  grand := fun _ i low high under => by
    obtain ⟨half, inside, double⟩ := topChild_spec child
    rw [half, Slots.slot_put_self, Slots.slot_put (show i ≠ p by omega)]
    have pair := ready.off i low high (by omega) (by omega)
    rwa [under] at pair
  above := fun _ => by
    obtain ⟨half, -, -⟩ := topChild_spec child
    rw [half, Slots.slot_put_self]
    exact ranking.asymm higher

omit [DecidableRel before] in
theorem DownReady.ordered (ready : DownReady before slots n p x)
    (stop : ∀ i, 1 < i → i < n → i / 2 = p → ¬ before (slots.slot i) x) :
    Ordered before (slots.put p x) n := by
  intro i low high
  by_cases here : i = p
  · subst here
    rw [Slots.slot_put_self, Slots.slot_put (show i / 2 ≠ i by omega)]
    exact ready.above low
  · rw [Slots.slot_put here]
    by_cases child : i / 2 = p
    · rw [child, Slots.slot_put_self]
      exact stop i low high child
    · rw [Slots.slot_put child]
      exact ready.off i low high here child

theorem siftDown_sound (ranking : Ranking before) (fuel : Nat) (enough : n ≤ p + fuel)
    (sifting : Sifting slots n p x live) (ready : DownReady before slots n p x) :
    Sound before (siftDown before x n fuel p slots) n live := by
  induction fuel generalizing p slots with
  | zero => exact absurd sifting.hole.2 (by omega)
  | succ fuel ih =>
    have hole := sifting.hole
    rw [siftDown]
    cases child : topChild before slots n p with
    | none =>
      refine ⟨ready.ordered fun i low high under => ?_, sifting.linked, sifting.mem_contents⟩
      unfold topChild at child
      split at child
      · omega
      · split at child <;> cases child
    | some c =>
      obtain ⟨half, inside, double⟩ := topChild_spec child
      simp only
      split
      · rename_i higher
        exact ih (by omega) (sifting.move (by omega) inside (by omega))
          (ready.move ranking hole.1 child higher)
      · rename_i stop
        refine ⟨ready.ordered fun i low high under => ?_, sifting.linked,
          sifting.mem_contents⟩
        exact ranking.negTrans (topChild_top ranking child i under high) stop

/-! ## Opening a hole -/

omit [DecidableEq α] [DecidableRel before] in
theorem Sound.append (sound : Sound before slots n live) (positive : 1 ≤ n) (fresh : ¬ live x) :
    Sifting slots (n + 1) n x (fun y => y = x ∨ live y) ∧ UpReady before slots (n + 1) n x := by
  refine ⟨⟨⟨positive, Nat.lt_succ_self n⟩, fun i low high other => ?_, fun i low high other same =>
    ?_, fun y => or_congr_right ?_⟩, ⟨fun i low high other _ => ?_, fun _ i _ high under => ?_,
    fun i _ high under => ?_⟩⟩
  · exact sound.linked i low (by omega)
  · refine fresh ((sound.content x).mp (Slots.mem_contents.mpr ⟨i, low, by omega, same⟩))
  · rw [← sound.content y, Slots.mem_contents]
    constructor
    · rintro ⟨i, low, high, same⟩
      exact ⟨i, low, by omega, by omega, same⟩
    · rintro ⟨i, low, high, other, same⟩
      exact ⟨i, low, by omega, same⟩
  · exact sound.ordered i low (by omega)
  · omega
  · omega

omit [DecidableEq α] [DecidableRel before] in
theorem Sound.remove (sound : Sound before slots (n + 1) live) (low : 1 ≤ p) (high : p < n) :
    Sifting slots n p (slots.slot n) (fun y => live y ∧ y ≠ slots.slot p) := by
  have differ : ∀ i j, 1 ≤ i → i ≤ n → 1 ≤ j → j ≤ n → i ≠ j → slots.slot i ≠ slots.slot j := by
    intro i j low high low' high' apart same
    refine apart ?_
    rw [← sound.linked i low (by omega), same, sound.linked j low' (by omega)]
  refine ⟨⟨low, high⟩, fun i low' high' _ => sound.linked i low' (by omega),
    fun i low' high' _ => differ i n low' (by omega) (by omega) le_rfl (by omega), fun y => ?_⟩
  rw [← sound.content y, Slots.mem_contents]
  constructor
  · rintro ⟨⟨i, low', high', same⟩, notRemoved⟩
    by_cases last : i = n
    · exact .inl (by rw [← same, last])
    · exact .inr ⟨i, low', by omega, fun here => notRemoved (by rw [← same, here]), same⟩
  · rintro (rfl | ⟨i, low', high', other, same⟩)
    · exact ⟨⟨n, by omega, by omega, rfl⟩, differ n p (by omega) le_rfl low (by omega) (by omega)⟩
    · refine ⟨⟨i, low', by omega, same⟩, ?_⟩
      rw [← same]
      exact differ i p low' (by omega) low (by omega) other

omit [DecidableEq α] [DecidableRel before] in
theorem Sound.removeLast (sound : Sound before slots (n + 1) live) (positive : 1 ≤ n) :
    Sound before slots n (fun y => live y ∧ y ≠ slots.slot n) where
  ordered := fun i low high => sound.ordered i low (by omega)
  linked := fun i low high => sound.linked i low (by omega)
  content := fun y => by
    rw [← sound.content y, Slots.mem_contents, Slots.mem_contents]
    constructor
    · rintro ⟨i, low, high, same⟩
      refine ⟨⟨i, low, by omega, same⟩, fun last => ?_⟩
      have apart : i ≠ n := by omega
      refine apart ?_
      rw [← sound.linked i low (by omega), same, last, sound.linked n positive (by omega)]
    · rintro ⟨⟨i, low, high, same⟩, notLast⟩
      refine ⟨i, low, ?_, same⟩
      have apart : i ≠ n := fun here => notLast (by rw [← same, here])
      omega

omit [DecidableEq α] [DecidableRel before] in
theorem Sound.lift (sound : Sound before slots n live) (low : 1 ≤ p) (high : p < n) :
    Sifting slots n p (slots.slot p) live where
  hole := ⟨low, high⟩
  place := fun i low' high' _ => sound.linked i low' high'
  other := fun i low' high' other same => other (by
    rw [← sound.linked i low' high', same, sound.linked p low high])
  content := fun y => by
    rw [← sound.content y, Slots.mem_contents]
    constructor
    · rintro ⟨i, low', high', same⟩
      by_cases here : i = p
      · exact .inl (by rw [← same, here])
      · exact .inr ⟨i, low', high', here, same⟩
    · rintro (rfl | ⟨i, low', high', other, same⟩)
      · exact ⟨p, low, high, rfl⟩
      · exact ⟨i, low', high', same⟩

omit [DecidableEq α] [DecidableRel before] in
theorem Ordered.grand (ranking : Ranking before) (ordered : Ordered before slots n) (inside : p < n)
    (inner : 1 < p) (i : Nat) (low : 1 < i) (high : i < n) (under : i / 2 = p) :
    ¬ before (slots.slot i) (slots.slot (p / 2)) := by
  have pair := ordered i low high
  rw [under] at pair
  exact ranking.negTrans pair (ordered p inner inside)

omit [DecidableEq α] [DecidableRel before] in
theorem Ordered.upReady (ranking : Ranking before) (ordered : Ordered before slots n)
    (inside : p < n) (level : ¬ before (slots.slot p) x) : UpReady before slots n p x where
  off := fun i low high _ _ => ordered i low high
  grand := fun inner => ordered.grand ranking inside inner
  below := fun i low high under => by
    have pair := ordered i low high
    rw [under] at pair
    exact ranking.negTrans pair level

omit [DecidableEq α] [DecidableRel before] in
theorem Ordered.downReady (ranking : Ranking before) (ordered : Ordered before slots n)
    (inside : p < n) (level : ¬ before x (slots.slot p)) : DownReady before slots n p x where
  off := fun i low high _ _ => ordered i low high
  grand := fun inner => ordered.grand ranking inside inner
  above := fun inner => ranking.negTrans level (ordered p inner inside)

omit [DecidableEq α] [DecidableRel before] in
theorem Ordered.root (ranking : Ranking before) (ordered : Ordered before slots n) (i : Nat)
    (low : 1 ≤ i) (high : i < n) : ¬ before (slots.slot i) (slots.slot 1) := by
  induction i using Nat.strongRecOn with
  | ind i ih =>
    by_cases first : i = 1
    · rw [first]
      exact ranking.irrefl _
    · exact ranking.negTrans (ordered i (by omega) high) (ih (i / 2) (by omega) (by omega) (by omega))

theorem siftUp_root (fuel : Nat) (inner : 1 < p) (level : ¬ before x (slots.slot 1)) :
    (siftUp before x fuel p slots).slot 1 = slots.slot 1 := by
  induction fuel generalizing p slots with
  | zero => exact Slots.slot_put (by omega)
  | succ fuel ih =>
    have same : (slots.put p (slots.slot (p / 2))).slot 1 = slots.slot 1 :=
      Slots.slot_put (by omega)
    rw [siftUp]
    split
    · rename_i moves
      have notFirst : p / 2 ≠ 1 := fun first => level (first ▸ moves.2)
      rw [ih (by omega) (by rwa [same]), same]
    · exact Slots.slot_put (by omega)

end PhpExts.Library.BinaryHeap
