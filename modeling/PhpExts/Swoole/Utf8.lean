import Mathlib

/-!
# The number of characters of a UTF-8 string

`swoole_utf8_length` counts characters, and returns the number of bytes where one is not valid. It
gives `swoole_utf8_decode` the length of the whole string, where what is left of it is due. So a
character that is cut off by the end of the string is read from behind it, unless one of the bytes
that are there is not a continuation, or the whole string is shorter than a character
(`right_iff_uncut`).
-/

namespace PhpExts.Swoole.Utf8

def lead (u : UInt8) : Option (Nat × Nat × Nat) :=
  if 0xf0 ≤ u then some ((u &&& 0x07).toNat, 0xffff, 3)
  else if 0xe0 ≤ u then some ((u &&& 0x0f).toNat, 0x7ff, 2)
  else if 0xc2 ≤ u then some ((u &&& 0x1f).toNat, 0x7f, 1)
  else none

def shift (u : Nat) (i : UInt8) : Nat := (u <<< 6) ||| (i &&& 0x3f).toNat

/-- The loop of `swoole_utf8_decode`: the value and the number of bytes that were read, or nothing
where a byte behind the string is read. -/
def decodeLoop : Nat → Nat → List UInt8 → Option (Nat × Nat)
  | u, 0, _ => some (u, 0)
  | _, _ + 1, [] => none
  | u, len + 1, i :: p =>
    if i < 0x80 then some (0xffffffff, 1)
    else (decodeLoop (shift u i) len p).map fun result => (result.1, result.2 + 1)

/-- `swoole_utf8_decode` at a byte and those behind it, with the number of these that were read.
What ends the loop early is larger than any limit. -/
def swooleUtf8Decode (c : UInt8) (p : List UInt8) (n : Nat) : Option (Nat × Nat) :=
  match lead c with
  | none => some (0xffffffff, 0)
  | some (u, valid, len) =>
    if n - 1 < len then some (0xfffffffe, 0)
    else (decodeLoop u len p).map fun result =>
      (if result.1 > valid then result.1 else 0xffffffff, result.2)

/-- The loop of `swoole_utf8_length`. -/
def lengthLoop (n len : Nat) : List UInt8 → Option Nat
  | [] => some len
  | c :: p =>
    if c < 0x80 then lengthLoop n (len + 1) p
    else
      match swooleUtf8Decode c p n with
      | none => none
      | some (u, read) => if u > 0x10ffff then some n else lengthLoop n (len + 1) (p.drop read)
termination_by p => p.length
decreasing_by all_goals simp only [List.length_cons, List.length_drop]; omega

/-- `swoole_utf8_length`. -/
def swooleUtf8Length (p : List UInt8) : Option Nat := lengthLoop p.length 0 p

def charLength (c : UInt8) (p : List UInt8) : Option Nat :=
  if c < 0x80 then some 0
  else
    match lead c with
    | none => none
    | some (u, valid, len) =>
      if len ≤ p.length ∧ (∀ i ∈ p.take len, 0x80 ≤ i)
          ∧ valid < (p.take len).foldl shift u ∧ (p.take len).foldl shift u ≤ 0x10ffff then
        some len
      else none

def codePoints : List UInt8 → Option Nat
  | [] => some 0
  | c :: p =>
    match charLength c p with
    | none => none
    | some len => (codePoints (p.drop len)).map (· + 1)
termination_by p => p.length
decreasing_by simp only [List.length_cons, List.length_drop]; omega

/-- Only the bytes of the string are read, for its number of characters; the number of bytes stands
for a string that is not valid. -/
def Right (p : List UInt8) : Prop := swooleUtf8Length p = some ((codePoints p).getD p.length)

def Cut (n : Nat) (c : UInt8) (p : List UInt8) : Prop :=
  ∃ u valid len, lead c = some (u, valid, len) ∧ p.length < len ∧ len < n ∧ ∀ i ∈ p, 0x80 ≤ i

def CutOff (n : Nat) : List UInt8 → Prop
  | [] => False
  | c :: p =>
    match charLength c p with
    | none => Cut n c p
    | some len => CutOff n (p.drop len)
termination_by p => p.length
decreasing_by simp only [List.length_cons, List.length_drop]; omega

theorem decodeLoop_eq : ∀ (u len : Nat) (p : List UInt8), len ≤ p.length →
    (∀ i ∈ p.take len, 0x80 ≤ i) → decodeLoop u len p = some ((p.take len).foldl shift u, len)
  | _, 0, _, _, _ => rfl
  | _, _ + 1, [], short, _ => absurd short (Nat.not_succ_le_zero _)
  | u, len + 1, i :: p, enough, follow => by
    rw [List.take_succ_cons] at follow ⊢
    have next := follow i (.head _)
    rw [decodeLoop, if_neg (UInt8.not_lt.mpr next), decodeLoop_eq _ len p
      (Nat.le_of_succ_le_succ enough) fun j mem => follow j (.tail _ mem)]
    rfl

theorem decodeLoop_none : ∀ (u len : Nat) (p : List UInt8), p.length < len →
    (∀ i ∈ p, 0x80 ≤ i) → decodeLoop u len p = none
  | _, 0, _, short, _ => absurd short (Nat.not_lt_zero _)
  | _, _ + 1, [], _, _ => rfl
  | u, len + 1, i :: p, short, follow => by
    have next := follow i (.head _)
    rw [decodeLoop, if_neg (UInt8.not_lt.mpr next), decodeLoop_none _ len p
      (Nat.lt_of_succ_lt_succ short) fun j mem => follow j (.tail _ mem)]
    rfl

theorem decodeLoop_invalid : ∀ (u len : Nat) (p : List UInt8), (∃ i ∈ p.take len, i < 0x80) →
    ∃ read, decodeLoop u len p = some (0xffffffff, read)
  | _, 0, _, invalid => by simp at invalid
  | _, _ + 1, [], invalid => by simp at invalid
  | u, len + 1, i :: p, invalid => by
    rw [decodeLoop]
    split_ifs with here
    · exact ⟨1, rfl⟩
    · obtain ⟨j, mem, below⟩ := invalid
      rw [List.take_succ_cons] at mem
      rcases List.mem_cons.mp mem with rfl | mem
      · exact absurd below here
      · obtain ⟨read, eq⟩ := decodeLoop_invalid (shift u i) len p ⟨j, mem, below⟩
        exact ⟨read + 1, by rw [eq]; rfl⟩

variable {n : Nat} {c : UInt8} {p : List UInt8}

theorem decode_of_charLength {len : Nat} (long : ¬ c < 0x80) (room : p.length < n)
    (valid : charLength c p = some len) :
    ∃ u, swooleUtf8Decode c p n = some (u, len) ∧ ¬ u > 0x10ffff := by
  rw [charLength, if_neg long] at valid
  rw [swooleUtf8Decode]
  cases first : lead c with
  | none => rw [first] at valid; cases valid
  | some bits =>
    obtain ⟨u, limit, size⟩ := bits
    rw [first] at valid
    simp only at valid ⊢
    split_ifs at valid with whole
    obtain ⟨enough, follow, above, below⟩ := whole
    obtain rfl := Option.some.inj valid
    rw [if_neg (by omega), decodeLoop_eq u size p enough follow]
    exact ⟨_, by rw [Option.map_some, if_pos above], by omega⟩

theorem decode_of_none (long : ¬ c < 0x80) (room : p.length < n) (invalid : charLength c p = none) :
    (Cut n c p → swooleUtf8Decode c p n = none)
      ∧ (¬ Cut n c p → ∃ u read, swooleUtf8Decode c p n = some (u, read) ∧ u > 0x10ffff) := by
  rw [charLength, if_neg long] at invalid
  rw [swooleUtf8Decode]
  cases first : lead c with
  | none =>
    refine ⟨?_, fun _ => ⟨_, _, rfl, by decide⟩⟩
    rintro ⟨u, limit, len, same, -⟩
    rw [first] at same
    cases same
  | some bits =>
    obtain ⟨u, limit, len⟩ := bits
    rw [first] at invalid
    simp only at invalid ⊢
    constructor
    · rintro ⟨u', limit', len', same, short, fits, follow⟩
      rw [first] at same
      cases same
      rw [if_neg (by omega), decodeLoop_none u len p short follow]
      rfl
    · intro whole
      split_ifs with small
      · exact ⟨_, _, rfl, by decide⟩
      by_cases follow : ∀ i ∈ p.take len, 0x80 ≤ i
      · by_cases enough : len ≤ p.length
        · rw [decodeLoop_eq u len p enough follow]
          refine ⟨_, _, rfl, ?_⟩
          simp only
          split_ifs with above
          · by_contra below
            rw [if_pos ⟨enough, follow, above, by omega⟩] at invalid
            cases invalid
          · decide
        · rw [List.take_of_length_le (by omega)] at follow
          exact absurd ⟨u, limit, len, first, by omega, by omega, follow⟩ whole
      · simp only [not_forall] at follow
        obtain ⟨i, mem, below⟩ := follow
        obtain ⟨read, eq⟩ := decodeLoop_invalid u len p ⟨i, mem, UInt8.not_le.mp below⟩
        rw [eq]
        refine ⟨_, _, rfl, ?_⟩
        simp only
        split_ifs
        all_goals decide

theorem lengthLoop_cons {len size : Nat} (room : p.length < n)
    (valid : charLength c p = some size) :
    lengthLoop n len (c :: p) = lengthLoop n (len + 1) (p.drop size) := by
  rw [lengthLoop]
  split_ifs with ascii
  · rw [charLength, if_pos ascii] at valid
    obtain rfl := Option.some.inj valid
    rw [List.drop_zero]
  · obtain ⟨u, eq, below⟩ := decode_of_charLength ascii room valid
    simp only [eq, if_neg below]

theorem lengthLoop_eq (p : List UInt8) : ∀ len : Nat, p.length ≤ n →
    (CutOff n p → lengthLoop n len p = none) ∧ (¬ CutOff n p →
        lengthLoop n len p = some (((codePoints p).map (len + ·)).getD n)) := by
  induction p using codePoints.induct with
  | case1 =>
    intro len _
    rw [CutOff, lengthLoop, codePoints]
    exact ⟨False.elim, fun _ => rfl⟩
  | case2 c p invalid =>
    intro len room
    have long : ¬ c < 0x80 := by
      intro ascii
      rw [charLength, if_pos ascii] at invalid
      cases invalid
    obtain ⟨outside, inside⟩ := decode_of_none long room invalid
    rw [CutOff, codePoints, lengthLoop, if_neg long, invalid]
    refine ⟨fun cut => by rw [outside cut], fun whole => ?_⟩
    obtain ⟨u, read, eq, above⟩ := inside whole
    rw [eq]
    exact if_pos above
  | case3 c p size valid ih =>
    intro len room
    rw [lengthLoop_cons room valid, CutOff, codePoints, valid]
    obtain ⟨outside, inside⟩ := ih (len + 1)
      (Nat.le_trans (by rw [List.length_drop]; omega) (Nat.le_of_succ_le room))
    refine ⟨outside, fun whole => ?_⟩
    rw [inside whole]
    cases rest : codePoints (p.drop size) with
    | none => simp only [rest, Option.map_none]
    | some k =>
      simp only [rest, Option.map_some, Option.getD_some, Option.some.injEq]
      omega

theorem not_right_of_cutOff (cut : CutOff p.length p) : ¬ Right p := by
  rw [Right, swooleUtf8Length, (lengthLoop_eq p 0 (Nat.le_refl _)).1 cut]
  exact nofun

/-- The count is right exactly where the string does not end in a character that is cut off behind
continuations, after valid ones. -/
theorem right_iff_uncut (p : List UInt8) : Right p ↔ ¬ CutOff p.length p := by
  constructor
  · exact fun right cut => not_right_of_cutOff cut right
  · intro whole
    rw [Right, swooleUtf8Length, (lengthLoop_eq p 0 (Nat.le_refl _)).2 whole]
    cases codePoints p with
    | none => rfl
    | some k => exact congrArg some (Nat.zero_add k)

/-- The first of the two bytes of a character, behind a letter. -/
theorem not_right_cut : ¬ ∀ p, Right p := by
  intro right
  refine not_right_of_cutOff ?_ (right [0x61, 0xc3])
  have ascii : charLength 0x61 [0xc3] = some 0 := by decide
  have cut : charLength 0xc3 [] = none := by decide
  rw [CutOff, ascii]
  simp only [List.drop_zero]
  rw [CutOff, cut]
  exact ⟨3, 0x7f, 1, by decide, by decide, by decide, nofun⟩

end PhpExts.Swoole.Utf8
