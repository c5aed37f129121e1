import Mathlib.Data.List.Zip
import PhpExts.Library.HashRing
import PhpExts.Redis.ClusterSlots

/-!
# The continuum of a `RedisArray`

Every host has 160 points, from digests of its name with a number. The points are sorted, and a key
belongs to the first point that is not below its hash, or to the first of all.

The text of a digest is put into an array of `HOST_NAME_MAX` bytes, but as many bytes are read as the
text has; with a longer name there is no continuum here. `steady_iff` says that this is all that can go
wrong: otherwise hosts that are appended take over keys, and no key changes to another host.
-/

namespace PhpExts.Redis.Continuum

open PhpExts.Library.HashRing
open PhpExts.Redis.Slots (printNumber)

/-- `%.*s-%u`. -/
def hostText (host : List UInt8) (j : Nat) : List UInt8 :=
  host.takeWhile (· != 0) ++ 45 :: printNumber j

def pointValue (digest : List UInt8) (k : Nat) : Nat :=
  (digest.getD (3 + k * 4) 0).toNat * 2 ^ 24 + (digest.getD (2 + k * 4) 0).toNat * 2 ^ 16 +
    (digest.getD (1 + k * 4) 0).toNat * 2 ^ 8 + (digest.getD (k * 4) 0).toNat

section

variable (md5 : List UInt8 → List UInt8) (hostNameMax : Nat)

def digestPoints (host : List UInt8) (i j : Nat) : List ContinuumPoint :=
  (List.range 4).map fun k => ⟨pointValue (md5 (hostText host j)) k, i⟩

def hostPoints (host : List UInt8) (i : Nat) : List ContinuumPoint :=
  (List.range 40).flatMap (digestPoints md5 host i)

def fitsArray (host : List UInt8) : Bool :=
  (List.range 40).all fun j => (hostText host j).length < hostNameMax

/-- The loops of `ra_make_continuum`; no result if more bytes than those of the array are read. -/
def makePoints (hosts : List (List UInt8)) : Option (List ContinuumPoint) :=
  if hosts.all (fitsArray hostNameMax) then
    some (hosts.zipIdx.flatMap fun host => hostPoints md5 host.1 host.2)
  else none

/-- `ra_make_continuum`: the points, in an order of `ra_points_cmp`. -/
def Makes (hosts : List (List UInt8)) (points : List ContinuumPoint) : Prop :=
  ∃ unsorted, makePoints md5 hostNameMax hosts = some unsorted ∧ points.Perm unsorted ∧
    points.Pairwise fun p q => p.value ≤ q.value

end

/-- The point of a hash, as in `ra_find_node`. -/
def findPoint (points : List ContinuumPoint) (ret : Nat) : Option ContinuumPoint :=
  let right := ringSearch points ret 0 points.length
  points[if right = points.length then 0 else right]?

section

variable {points : List ContinuumPoint} {ret : Nat}

/-- **The interval gets smaller; what is to its left is below, and what is to its right is not.** -/
theorem ringSearch_spec (sorted : points.Pairwise fun p q => p.value ≤ q.value) {left right : Nat}
    (order : left ≤ right) (inside : right ≤ points.length)
    (below : ∀ i (bound : i < points.length), i < left → points[i].value < ret)
    (notBelow : ∀ i (bound : i < points.length), right ≤ i → ret ≤ points[i].value) :
    ringSearch points ret left right ≤ points.length ∧
      (∀ i (bound : i < points.length), i < ringSearch points ret left right →
        points[i].value < ret) ∧
      ∀ i (bound : i < points.length), ringSearch points ret left right ≤ i →
        ret ≤ points[i].value := by
  have monotone : ∀ i j (low : i < points.length) (high : j < points.length), i ≤ j →
      points[i].value ≤ points[j].value := by
    intro i j low high le
    rcases Nat.eq_or_lt_of_le le with rfl | lt
    · exact Nat.le_refl _
    · exact List.pairwise_iff_getElem.mp sorted i j low high lt
  induction width : right - left using Nat.strong_induction_on generalizing left right with
  | h width ih =>
    rw [ringSearch]
    by_cases more : left < right
    · have bound : (left + right) / 2 < points.length := by omega
      rw [if_pos more]
      dsimp only
      rw [List.getElem?_eq_getElem bound, Option.map_some, Option.getD_some]
      by_cases isBelow : points[(left + right) / 2].value < ret
      · rw [if_pos isBelow]
        refine ih (right - ((left + right) / 2 + 1)) (by omega) (by omega) inside ?_ notBelow rfl
        intro i bound' lt
        exact Nat.lt_of_le_of_lt (monotone i _ bound' bound (by omega)) isBelow
      · rw [if_neg isBelow]
        refine ih ((left + right) / 2 - left) (by omega) (by omega) (by omega) below ?_ rfl
        intro i bound' le
        exact (Nat.le_of_not_lt isBelow).trans (monotone _ i bound bound' le)
    · rw [if_neg more]
      refine ⟨inside, fun i bound lt => below i bound (by omega), notBelow⟩

structure IsFirst (points : List ContinuumPoint) (ret : Nat) (point : ContinuumPoint) : Prop where
  first : (∃ front back, points = front ++ point :: back ∧ (∀ q ∈ front, q.value < ret) ∧
      ret ≤ point.value) ∨
    (∀ q ∈ points, q.value < ret) ∧ ∃ back, points = point :: back

theorem IsFirst.selects {point : ContinuumPoint}
    (sorted : points.Pairwise fun p q => p.value ≤ q.value) (isFirst : IsFirst points ret point) :
    Selects ContinuumPoint.value points ret point := by
  rcases isFirst.first with ⟨front, back, rfl, below, notBelow⟩ | ⟨below, back, rfl⟩
  · exact Selects.of_first sorted below notBelow
  · exact Selects.of_below sorted below

theorem findPoint_spec (some_ : points ≠ [])
    (sorted : points.Pairwise fun p q => p.value ≤ q.value) (ret : Nat) :
    ∃ point, findPoint points ret = some point ∧ IsFirst points ret point := by
  obtain ⟨inside, below, notBelow⟩ := @ringSearch_spec points ret sorted 0 points.length
    (Nat.zero_le _) (Nat.le_refl _) (fun i _ lt => absurd lt (Nat.not_lt_zero i))
    fun i bound le => absurd bound (Nat.not_lt.mpr le)
  rw [findPoint]
  generalize ringSearch points ret 0 points.length = right at inside below notBelow
  by_cases isEnd : right = points.length
  · rw [if_pos isEnd]
    cases points with
    | nil => exact absurd rfl some_
    | cons first rest =>
      refine ⟨first, rfl, ⟨.inr ⟨fun q isPoint => ?_, rest, rfl⟩⟩⟩
      obtain ⟨i, bound, rfl⟩ := List.getElem_of_mem isPoint
      exact below i bound (by omega)
  · have bound : right < points.length := by omega
    rw [if_neg isEnd, List.getElem?_eq_getElem bound]
    refine ⟨points[right], rfl, ⟨.inl ⟨points.take right, points.drop (right + 1), ?_, ?_, ?_⟩⟩⟩
    · rw [List.getElem_cons_drop, List.take_append_drop]
    · intro q isPoint
      obtain ⟨i, bound', rfl⟩ := List.getElem_of_mem isPoint
      have lt : i < right := by
        rw [List.length_take] at bound'
        omega
      rw [List.getElem_take]
      exact below i (by omega) lt
    · exact notBelow right bound (Nat.le_refl _)

end

/-- The continuum is made, a hash is looked up as it should be, and hosts that are appended take keys
over while no key changes to another of the old hosts. -/
structure Steady (md5 : List UInt8 → List UInt8) (hostNameMax : Nat)
    (hosts more : List (List UInt8)) : Prop where
  made : ∃ points, Makes md5 hostNameMax hosts points
  found : ∀ points, Makes md5 hostNameMax hosts points → ∀ ret, ∃ point,
    findPoint points ret = some point ∧ IsFirst points ret point ∧
      Selects ContinuumPoint.value points ret point
  kept : ∀ points points', Makes md5 hostNameMax hosts points →
    Makes md5 hostNameMax (hosts ++ more) points' → (points'.map ContinuumPoint.value).Nodup →
      ∀ ret point point', findPoint points ret = some point → findPoint points' ret = some point' →
        point'.index = point.index ∨ hosts.length ≤ point'.index

def Short (hostNameMax : Nat) (host : List UInt8) : Prop :=
  (host.takeWhile (· != 0)).length + 3 < hostNameMax

section

variable {md5 : List UInt8 → List UInt8} {hostNameMax : Nat} {hosts more : List (List UInt8)}

theorem hostText_length (host : List UInt8) {j : Nat} (bound : j < 40) :
    (hostText host j).length ≤ (host.takeWhile (· != 0)).length + 3 := by
  have digits : ∀ j < 40, (printNumber j).length ≤ 2 := by decide
  have := digits j bound
  rw [hostText, List.length_append, List.length_cons]
  omega

theorem fitsArray_iff (host : List UInt8) : fitsArray hostNameMax host = true ↔
    Short hostNameMax host := by
  rw [fitsArray, List.all_eq_true, Short]
  constructor
  · intro fits
    have last := of_decide_eq_true (fits 39 (List.mem_range.mpr (by decide)))
    rw [hostText, List.length_append, List.length_cons] at last
    exact last
  · intro short j isIndex
    apply decide_eq_true
    exact Nat.lt_of_le_of_lt (hostText_length host (List.mem_range.mp isIndex)) short

theorem makePoints_short (short : ∀ host ∈ hosts, Short hostNameMax host) :
    makePoints md5 hostNameMax hosts =
      some (hosts.zipIdx.flatMap fun host => hostPoints md5 host.1 host.2) := by
  rw [makePoints, if_pos]
  rw [List.all_eq_true]
  intro host isHost
  exact (fitsArray_iff host).mpr (short host isHost)

variable {points : List ContinuumPoint}

theorem short_of_makes (makes : Makes md5 hostNameMax hosts points) :
    ∀ host ∈ hosts, Short hostNameMax host := by
  obtain ⟨unsorted, isMade, -, -⟩ := makes
  rw [makePoints] at isMade
  split at isMade
  · rename_i fits
    intro host isHost
    exact (fitsArray_iff host).mp (List.all_eq_true.mp fits host isHost)
  · cases isMade

theorem index_of_mem {start : Nat} {point : ContinuumPoint}
    (isPoint : point ∈ (hosts.zipIdx start).flatMap fun host => hostPoints md5 host.1 host.2) :
    (start : Int) ≤ point.index ∧ point.index < start + hosts.length := by
  obtain ⟨⟨host, i⟩, isHost, isPoint⟩ := List.mem_flatMap.mp isPoint
  obtain ⟨j, -, isPoint⟩ := List.mem_flatMap.mp isPoint
  obtain ⟨k, -, rfl⟩ := List.mem_map.mp isPoint
  have bounds := List.mem_zipIdx isHost
  dsimp only at bounds ⊢
  omega

theorem points_ne_nil (some_ : hosts ≠ []) :
    (hosts.zipIdx.flatMap fun host => hostPoints md5 host.1 host.2) ≠ [] := by
  cases hosts with
  | nil => exact absurd rfl some_
  | cons host hosts =>
    rw [List.zipIdx_cons, List.flatMap_cons]
    intro nothing
    have := congrArg List.length (List.append_eq_nil_iff.mp nothing).1
    simp [hostPoints, digestPoints] at this

theorem Makes.ne_nil (makes : Makes md5 hostNameMax hosts points)
    (some_ : hosts ≠ []) : points ≠ [] := by
  have short := short_of_makes makes
  obtain ⟨unsorted, isMade, perm, -⟩ := makes
  rw [makePoints_short short] at isMade
  cases isMade
  intro nothing
  rw [nothing] at perm
  exact points_ne_nil some_ perm.symm.eq_nil

theorem Makes.found (makes : Makes md5 hostNameMax hosts points)
    (some_ : hosts ≠ []) (ret : Nat) : ∃ point, findPoint points ret = some point ∧
      IsFirst points ret point ∧ Selects ContinuumPoint.value points ret point := by
  have sorted := makes.choose_spec.2.2
  obtain ⟨point, isFound, isFirst⟩ := findPoint_spec (makes.ne_nil some_) sorted ret
  exact ⟨point, isFound, isFirst, isFirst.selects sorted⟩

theorem Makes.appended {points' : List ContinuumPoint} (makes : Makes md5 hostNameMax hosts points)
    (makes' : Makes md5 hostNameMax (hosts ++ more) points') :
    points ⊆ points' ∧ ∀ point ∈ points', point ∉ points → hosts.length ≤ point.index := by
  have short := short_of_makes makes
  have short' := short_of_makes makes'
  obtain ⟨unsorted, isMade, perm, -⟩ := makes
  obtain ⟨unsorted', isMade', perm', -⟩ := makes'
  rw [makePoints_short short] at isMade
  rw [makePoints_short short', List.zipIdx_append, List.flatMap_append] at isMade'
  cases isMade
  cases isMade'
  constructor
  · intro point isPoint
    exact perm'.mem_iff.mpr (List.mem_append_left _ (perm.mem_iff.mp isPoint))
  · intro point isPoint added
    rcases List.mem_append.mp (perm'.mem_iff.mp isPoint) with old | new
    · exact absurd (perm.mem_iff.mpr old) added
    · have bounds := index_of_mem new
      omega

end

/-- The continuum is as it should be exactly if there are hosts, whose names are short. -/
theorem steady_iff (md5 : List UInt8 → List UInt8) (hostNameMax : Nat)
    (hosts more : List (List UInt8)) : Steady md5 hostNameMax hosts more ↔
      hosts ≠ [] ∧ ∀ host ∈ hosts, Short hostNameMax host := by
  constructor
  · rintro ⟨⟨points, makes⟩, found, -⟩
    refine ⟨?_, short_of_makes makes⟩
    rintro rfl
    obtain ⟨point, isFound, -⟩ := found points makes 0
    obtain ⟨unsorted, isMade, perm, -⟩ := makes
    obtain rfl : [] = unsorted := Option.some.inj isMade
    rw [perm.eq_nil] at isFound
    cases isFound
  · rintro ⟨some_, short⟩
    refine ⟨?_, fun points makes ret => makes.found some_ ret, ?_⟩
    · refine ⟨_, _, makePoints_short short, List.mergeSort_perm _ fun p q => p.value ≤ q.value, ?_⟩
      have sorted := @List.pairwise_mergeSort ContinuumPoint (fun p q => p.value ≤ q.value)
        (by simpa using fun a b c => Nat.le_trans) (by simpa using fun a b => Nat.le_total _ _)
        (hosts.zipIdx.flatMap fun host => hostPoints md5 host.1 host.2)
      exact sorted.imp fun le => of_decide_eq_true le
    · intro points points' makes makes' nodup ret point point' isFound isFound'
      obtain ⟨_, found, -, selects⟩ := makes.found some_ ret
      obtain rfl := Option.some.inj (found.symm.trans isFound)
      obtain ⟨_, found', -, selects'⟩ := makes'.found (by simp [some_]) ret
      obtain rfl := Option.some.inj (found'.symm.trans isFound')
      obtain ⟨subset, added⟩ := makes.appended makes'
      rcases selects.same_or_added selects' subset
        (fun p isPoint q isPoint' same => List.inj_on_of_nodup_map nodup isPoint isPoint' same) with
        same | new
      · left
        rw [same]
      · right
        exact added _ selects'.mem new

/-- A host with a name of 64 bytes, for an array of 64. -/
theorem not_steady : ¬∀ md5 hostNameMax hosts more, Steady md5 hostNameMax hosts more := by
  intro steady
  obtain ⟨points, makes⟩ := (steady (fun _ => []) 64 [List.replicate 64 104] []).made
  have short := short_of_makes makes (List.replicate 64 104) (.head _)
  rw [Short] at short
  exact absurd short (by decide)

end PhpExts.Redis.Continuum
