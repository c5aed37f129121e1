import PhpExts.Redis.Continuum

/-!
# The range of node positions

Without a distributor of the user, `ra_find_node` takes the node of a key from its hash: by the
continuum, or by the complement of the hash, in proportion. The hash 0 has the complement
`0xffffffff`, and its position is the number of nodes (`selected_iff`).
-/

namespace PhpExts.Redis.NodeRange

open PhpExts.Redis.Continuum

/-- `ret`, the hash of what has been extracted from a key. -/
def hashOf (ra : RedisArray) (out : List UInt8) : Nat :=
  match ra.algorithm with
  | some digest => digest out % 0xffffffff
  | none => out.foldl crc32 0xffffffff

/-- There are nodes, and the points of a continuum are some of theirs. -/
structure Valid (ra : RedisArray) : Prop where
  some_ : 0 < ra.count
  points : ∀ points, ra.continuum = some points →
    points ≠ [] ∧ ∀ point ∈ points, 0 ≤ point.index ∧ point.index < ra.count

structure Selected (ra : RedisArray) (key : List UInt8) : Prop where
  inRange : ∀ out, raExtractKey ra key = some out →
    ∃ pos, raFindNode ra key = some pos ∧ 0 ≤ pos ∧ pos < ra.count
  alike : ∀ key', raExtractKey ra key' = raExtractKey ra key →
    raFindNode ra key' = raFindNode ra key

theorem crc32tab_lt {index : Nat} (bound : index < 2 ^ 32) : crc32tab index < 2 ^ 32 := by
  rw [crc32tab]
  induction List.range 8 generalizing index with
  | nil => exact bound
  | cons _ rest ih =>
    apply ih
    have half : index / 2 < 2 ^ 32 := Nat.lt_of_le_of_lt (Nat.div_le_self _ _) bound
    dsimp only
    split
    · exact Nat.xor_lt_two_pow half (by decide)
    · exact half

theorem crc32_lt {crc : Nat} (bound : crc < 2 ^ 32) (byte : UInt8) : crc32 crc byte < 2 ^ 32 := by
  rw [crc32]
  apply Nat.xor_lt_two_pow
  · exact Nat.lt_of_le_of_lt (Nat.div_le_self _ _) bound
  · apply crc32tab_lt
    exact Nat.lt_trans (Nat.mod_lt _ (by decide)) (by decide)

theorem hashOf_lt (ra : RedisArray) (out : List UInt8) : hashOf ra out < 2 ^ 32 := by
  rw [hashOf]
  cases ra.algorithm with
  | some digest => exact Nat.lt_trans (Nat.mod_lt _ (by decide)) (by decide)
  | none =>
    have start : 0xffffffff < 2 ^ 32 := by decide
    dsimp only
    revert start
    generalize 0xffffffff = crc
    intro start
    induction out generalizing crc with
    | nil => exact start
    | cons byte out ih => exact ih _ (crc32_lt start byte)

theorem xor_ones {ret : Nat} (bound : ret < 2 ^ 32) : ret ^^^ 0xffffffff = 0xffffffff - ret := by
  have same := congrArg BitVec.toNat (@BitVec.xor_allOnes 32 (BitVec.ofNat 32 ret))
  rw [BitVec.toNat_xor, BitVec.toNat_not, BitVec.toNat_ofNat, BitVec.toNat_allOnes,
    Nat.mod_eq_of_lt bound] at same
  exact same

theorem position_lt_iff {ret count : Nat} (bound : ret < 2 ^ 32) (some_ : 0 < count) :
    (ret ^^^ 0xffffffff) * count / 0xffffffff < count ↔ ret ≠ 0 := by
  rw [xor_ones bound, Nat.div_lt_iff_lt_mul (by decide), Nat.mul_comm count]
  constructor
  · rintro less rfl
    exact absurd less (Nat.lt_irrefl _)
  · intro nonzero
    apply Nat.mul_lt_mul_of_pos_right _ some_
    omega

theorem ringSearch_le (points : List ContinuumPoint) (ret : Nat) {left right : Nat}
    (inside : right ≤ points.length) : ringSearch points ret left right ≤ points.length := by
  induction width : right - left using Nat.strong_induction_on generalizing left right with
  | h width ih =>
    rw [ringSearch]
    split
    · dsimp only
      split
      · exact ih _ (by omega) inside rfl
      · exact ih _ (by omega) (by omega) rfl
    · exact inside

theorem findPoint_mem {points : List ContinuumPoint} (some_ : points ≠ []) (ret : Nat) :
    ∃ point ∈ points, findPoint points ret = some point := by
  have inside := @ringSearch_le points ret 0 points.length (Nat.le_refl _)
  have positive := List.length_pos_iff.mpr some_
  have bound : (if ringSearch points ret 0 points.length = points.length then 0
      else ringSearch points ret 0 points.length) < points.length := by
    split <;> omega
  rw [findPoint]
  exact ⟨_, List.getElem_mem bound, List.getElem?_eq_getElem bound⟩

section

variable {ra : RedisArray} {key : List UInt8}

theorem raFindNode_eq (noUser : ra.distributor = none) : raFindNode ra key =
    (raExtractKey ra key).bind fun out => match ra.continuum with
      | some points => (findPoint points (hashOf ra out)).map ContinuumPoint.index
      | none => some ((hashOf ra out ^^^ 0xffffffff) * ra.count / 0xffffffff : Nat) := by
  rw [raFindNode, noUser]
  rfl

/-- The position of a hash is in range on a continuum, and without one if the hash is not 0. -/
theorem selected_iff (ra : RedisArray) (valid : Valid ra) (noUser : ra.distributor = none)
    (key : List UInt8) : Selected ra key ↔
      ra.continuum.isSome ∨ ∀ out, raExtractKey ra key = some out → hashOf ra out ≠ 0 := by
  have alike : ∀ key', raExtractKey ra key' = raExtractKey ra key →
      raFindNode ra key' = raFindNode ra key := by
    intro key' same
    rw [raFindNode_eq noUser, raFindNode_eq noUser, same]
  cases ring : ra.continuum with
  | some points =>
    refine ⟨fun _ => .inl rfl, fun _ => ⟨fun out extracted => ?_, alike⟩⟩
    obtain ⟨some_, inside⟩ := valid.points points ring
    obtain ⟨point, isPoint, found⟩ := findPoint_mem some_ (hashOf ra out)
    refine ⟨point.index, ?_, inside point isPoint⟩
    rw [raFindNode_eq noUser, extracted, ring, Option.bind_some]
    dsimp only
    rw [found, Option.map_some]
  | none =>
    have position : ∀ out, raExtractKey ra key = some out → raFindNode ra key =
        some (((hashOf ra out ^^^ 0xffffffff) * ra.count / 0xffffffff : Nat) : Int) := by
      intro out extracted
      rw [raFindNode_eq noUser, extracted, ring, Option.bind_some]
    constructor
    · intro selected
      right
      intro out extracted
      obtain ⟨pos, found, -, less⟩ := selected.inRange out extracted
      rw [position out extracted] at found
      cases found
      exact (position_lt_iff (hashOf_lt ra out) valid.some_).mp (Int.ofNat_lt.mp less)
    · rintro (isSome | nonzero)
      · cases isSome
      · refine ⟨fun out extracted => ⟨_, position out extracted, Int.natCast_nonneg _, ?_⟩, alike⟩
        exact Int.ofNat_lt.mpr
          ((position_lt_iff (hashOf_lt ra out) valid.some_).mpr (nonzero out extracted))

end

/-- A continuum that is made for the nodes has points of theirs. -/
theorem valid_of_makes {ra : RedisArray} {md5 : List UInt8 → List UInt8} {hostNameMax : Nat}
    {hosts : List (List UInt8)} (some_ : hosts ≠ []) (count : ra.count = hosts.length)
    (made : ∀ points, ra.continuum = some points → Makes md5 hostNameMax hosts points) :
    Valid ra := by
  refine ⟨by rw [count]; exact List.length_pos_iff.mpr some_, fun points ring => ?_⟩
  have makes := made points ring
  refine ⟨makes.ne_nil some_, fun point isPoint => ?_⟩
  have short := short_of_makes makes
  obtain ⟨unsorted, isMade, perm, -⟩ := makes
  rw [makePoints_short short] at isMade
  cases isMade
  have bounds := index_of_mem (perm.mem_iff.mp isPoint)
  rw [count]
  omega

def pair : RedisArray := ⟨2, none, none, none, none⟩

theorem selected_pair : Selected pair [97] := by
  have valid : Valid pair := ⟨by decide, nofun⟩
  refine (selected_iff pair valid rfl [97]).mpr (.inr fun out extracted => ?_)
  obtain rfl : [97] = out := Option.some.inj extracted
  decide +kernel

/-- The hash of four bytes 255 is 0. -/
theorem not_selected : ¬∀ ra, Valid ra → ra.distributor = none → ∀ key, Selected ra key := by
  intro selected
  obtain ⟨pos, found, -, less⟩ :=
    (selected pair ⟨by decide, nofun⟩ rfl [255, 255, 255, 255]).inRange _ rfl
  have position : raFindNode pair [255, 255, 255, 255] = some 2 := by decide +kernel
  rw [position] at found
  cases found
  exact absurd less (by decide)

end PhpExts.Redis.NodeRange
