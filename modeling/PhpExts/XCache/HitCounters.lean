import Mathlib

/-!
# Hits by time

Hits are counted by the interval that their request is in, in an array that is gone through in a
circle. Where a hit comes in a later interval than the one before, the slots between the two are
cleared: from the slot of the old interval on to that of the new one. This is once around at most, so
that after a longer time slots keep what they had counted, but where the new slot is the old one
(`slidingWindow_of_turns`).
-/

namespace PhpExts.XCache.HitCounters

open Function (update update_of_ne update_self)

def advanceWrapped (val count : Nat) : Nat :=
  if count ≤ (val + 1) % 2 ^ 32 then 0 else (val + 1) % 2 ^ 32

/-- The loop of `xc_counters_inc`; `none` if it does not come to the slot. -/
def clearSlots (ncounters target : Nat) : Nat → Nat → (Nat → Nat) → Option (Nat → Nat)
  | 0, _, _ => none
  | fuel + 1, slot, counters =>
    if slot = target then some counters
    else clearSlots ncounters target fuel (advanceWrapped slot ncounters)
      (update counters slot 0)

structure Counters where
  curtime : Nat
  curslot : Nat
  counters : Nat → Nat

def Counters.init : Counters := ⟨0, 0, fun _ => 0⟩

/-- `counters[*curslot] ++`. -/
def Counters.count (c : Counters) : Counters :=
  ⟨c.curtime, c.curslot,
    update c.counters c.curslot ((c.counters c.curslot + 1) % 2 ^ 64)⟩

/-- `xc_counters_inc`; a division by zero ends the process. -/
def xcCountersInc (ncounters interval : Nat) (c : Counters) (requestTime : Nat) : Option Counters :=
  let n := requestTime / interval
  if interval = 0 then none
  else if c.curtime < n then
    let targetSlot := n % 2 ^ 32 % ncounters
    (clearSlots ncounters targetSlot ncounters (advanceWrapped c.curslot ncounters) c.counters).map
      fun counters =>
        Counters.count ⟨n, targetSlot, update counters targetSlot 0⟩
  else some c.count

def run (ncounters interval : Nat) (requestTimes : List Nat) : Option Counters :=
  requestTimes.foldlM (xcCountersInc ncounters interval) Counters.init

/-- How many hits there were in an interval. -/
def hits (interval : Nat) (requestTimes : List Nat) (k : Nat) : Nat :=
  requestTimes.countP fun time => time / interval = k

def Window (ncounters interval : Nat) (requestTimes : List Nat) (c : Counters) : Prop :=
  ∀ last ∈ requestTimes.getLast?, ∀ k, k ≤ last / interval → last / interval < k + ncounters →
    c.counters (k % ncounters) = hits interval requestTimes k

def SlidingWindow (ncounters interval : Nat) (requestTimes : List Nat) : Prop :=
  ∀ front back, requestTimes = front ++ back →
    ∃ c, run ncounters interval front = some c ∧ Window ncounters interval front c

def Turns (ncounters interval time next : Nat) : Prop :=
  next / interval ≤ time / interval + ncounters ∨
    ncounters ∣ next / interval - time / interval

def Uncut (ncounters interval time : Nat) : Prop :=
  time / interval % 2 ^ 32 % ncounters = time / interval % ncounters

section

variable {ncounters : Nat}

theorem advanceWrapped_mod (positive : 0 < ncounters) (small : ncounters < 2 ^ 32) (c : Nat) :
    advanceWrapped (c % ncounters) ncounters = (c + 1) % ncounters := by
  have bound := Nat.mod_lt c positive
  have same : (c % ncounters + 1) % 2 ^ 32 = c % ncounters + 1 := Nat.mod_eq_of_lt (by omega)
  have next : (c + 1) % ncounters = (c % ncounters + 1) % ncounters :=
    (Nat.mod_add_mod c ncounters 1).symm
  rw [advanceWrapped, same, next]
  by_cases wraps : ncounters ≤ c % ncounters + 1
  · have last : c % ncounters + 1 = ncounters := by omega
    rw [if_pos wraps, last, Nat.mod_self]
  · have within : (c % ncounters + 1) % ncounters = c % ncounters + 1 :=
      Nat.mod_eq_of_lt (by omega)
    rw [if_neg wraps, within]

theorem mod_ne {a b : Nat} (less : a < b) (near : b < a + ncounters) :
    a % ncounters ≠ b % ncounters := by
  intro same
  have divides := (Nat.modEq_iff_dvd' less.le).mp same
  have := Nat.le_of_dvd (by omega) divides
  omega

/-- **The loop clears the slots between, in at most a turn; the induction is on how many.** -/
theorem clearSlots_spec (positive : 0 < ncounters) (small : ncounters < 2 ^ 32) {d : Nat}
    (some_ : 1 ≤ d) (turn : d ≤ ncounters) (c fuel : Nat) (enough : d ≤ fuel)
    (counters : Nat → Nat) :
    ∃ cleared, clearSlots ncounters ((c + d) % ncounters) fuel ((c + 1) % ncounters) counters =
        some cleared ∧ (∀ j, 1 ≤ j → j < d → cleared ((c + j) % ncounters) = 0) ∧
      ∀ slot, (∀ j, 1 ≤ j → j < d → slot ≠ (c + j) % ncounters) → cleared slot = counters slot := by
  induction d generalizing c fuel counters with
  | zero => exact absurd some_ (by decide)
  | succ d ih =>
    obtain ⟨fuel, rfl⟩ : ∃ less, fuel = less + 1 := ⟨fuel - 1, by omega⟩
    rw [clearSlots]
    cases d with
    | zero =>
      rw [if_pos rfl]
      exact ⟨counters, rfl, fun j low high => by omega, fun slot _ => rfl⟩
    | succ d =>
      have apart : (c + 1) % ncounters ≠ (c + (d + 1 + 1)) % ncounters :=
        mod_ne (by omega) (by omega)
      rw [if_neg apart, advanceWrapped_mod positive small]
      have shift : c + (d + 1 + 1) = c + 1 + (d + 1) := by omega
      rw [shift]
      obtain ⟨cleared, result, zeros, kept⟩ := ih (by omega) (by omega) (c + 1) fuel (by omega)
        (update counters ((c + 1) % ncounters) 0)
      refine ⟨cleared, result, fun j low high => ?_, fun slot other => ?_⟩
      · rcases Nat.eq_or_lt_of_le low with rfl | later
        · rw [kept, update_self]
          intro i low' high'
          exact mod_ne (by omega) (by omega)
        · have := zeros (j - 1) (by omega) (by omega)
          rwa [show c + 1 + (j - 1) = c + j by omega] at this
      · rw [kept, update_of_ne (other 1 (Nat.le_refl _) (by omega))]
        intro i low' high'
        have := other (i + 1) (by omega) (by omega)
        rwa [show c + (i + 1) = c + 1 + i by omega] at this

theorem exists_distance (positive : 0 < ncounters) {c n : Nat} (less : c < n) :
    ∃ d, 1 ≤ d ∧ d ≤ ncounters ∧ n % ncounters = (c + d) % ncounters ∧
      (n ≤ c + ncounters → c + d = n) ∧ (ncounters ∣ n - c → d = ncounters) := by
  by_cases turn : n ≤ c + ncounters
  · refine ⟨n - c, by omega, by omega, ?_, fun _ => by omega, fun divides => ?_⟩
    · rw [Nat.add_sub_cancel' less.le]
    · have := Nat.le_of_dvd (by omega) divides
      omega
  · have sum : c + (n - c) = n := Nat.add_sub_cancel' less.le
    by_cases divides : ncounters ∣ n - c
    · refine ⟨ncounters, positive, Nat.le_refl _, ?_, fun within => absurd within turn,
        fun _ => rfl⟩
      obtain ⟨turns, equal⟩ := divides
      rw [← sum, equal, Nat.add_mul_mod_self_left, Nat.add_mod_right]
    · have bound := Nat.mod_lt (n - c) positive
      refine ⟨(n - c) % ncounters, by omega, by omega, ?_, fun within => absurd within turn,
        fun other => absurd other divides⟩
      rw [Nat.add_mod_mod, sum]

end

/-! ## What a hit keeps -/

section

variable {interval : Nat}

theorem hits_append (front : List Nat) (time k : Nat) : hits interval (front ++ [time]) k =
      hits interval front k + if time / interval = k then 1 else 0 := by
  rw [hits, List.countP_append, List.countP_singleton]
  simp only [hits, decide_eq_true_eq]

theorem hits_of_ne {front : List Nat} {time k : Nat} (other : time / interval ≠ k) :
    hits interval (front ++ [time]) k = hits interval front k := by
  rw [hits_append, if_neg other, Nat.add_zero]

theorem hits_self (front : List Nat) (time : Nat) :
    hits interval (front ++ [time]) (time / interval) =
      hits interval front (time / interval) + 1 := by
  rw [hits_append, if_pos rfl]

theorem hits_eq_zero {times : List Nat} {latest k : Nat}
    (past : ∀ time ∈ times, time / interval ≤ latest) (later : latest < k) :
    hits interval times k = 0 := by
  apply List.countP_eq_zero.mpr
  intro time mem
  have := past time mem
  simp only [decide_eq_true_eq]
  omega

end

structure Counted (ncounters interval : Nat) (times : List Nat) (c : Counters) : Prop where
  past : ∀ time ∈ times, time / interval ≤ c.curtime
  last : ∀ time ∈ times.getLast?, time / interval = c.curtime
  slot : c.curslot = c.curtime % ncounters
  window : ∀ k, k ≤ c.curtime → c.curtime < k + ncounters →
    c.counters (k % ncounters) = hits interval times k
  empty : times = [] → c = Counters.init

section

variable {ncounters interval : Nat} {front : List Nat} {c : Counters} {time : Nat}

theorem counted_init (positive : 0 < ncounters) : Counted ncounters interval [] Counters.init where
  past := fun time mem => absurd mem List.not_mem_nil
  last := fun time mem => absurd mem (by simp)
  slot := (Nat.mod_eq_of_lt positive).symm
  window := fun k _ _ => rfl
  empty := fun _ => rfl

theorem Counted.same (counted : Counted ncounters interval front c)
    (same : time / interval = c.curtime)
    (few : hits interval (front ++ [time]) (time / interval) < 2 ^ 64) :
    Counted ncounters interval (front ++ [time]) c.count where
  past := by
    intro other mem
    rcases List.mem_append.mp mem with earlier | this
    · exact counted.past other earlier
    · rw [List.mem_singleton.mp this]
      exact same.le
  last := by
    intro other mem
    rw [List.getLast?_concat, Option.mem_some_iff] at mem
    exact mem ▸ same
  slot := counted.slot
  window := by
    intro k low high
    change k ≤ c.curtime at low
    change c.curtime < k + ncounters at high
    rcases Nat.eq_or_lt_of_le low with rfl | less
    · rw [same] at few
      have value := counted.window c.curtime (Nat.le_refl _) high
      have more : hits interval (front ++ [time]) c.curtime =
          hits interval front c.curtime + 1 := same ▸ hits_self front time
      change update c.counters c.curslot _ _ = _
      rw [more] at few ⊢
      rw [counted.slot, update_self, value]
      exact Nat.mod_eq_of_lt few
    · rw [hits_of_ne (by omega), ← counted.window k low high]
      change update c.counters c.curslot _ _ = _
      rw [counted.slot, update_of_ne (mod_ne less high)]
  empty := fun nil => absurd nil (by simp)

/-- **A hit in a later interval.** The slots of the intervals between are cleared, those of the
intervals before are kept, as far as they are still of the last intervals. -/
theorem Counted.later (counted : Counted ncounters interval front c)
    (less : c.curtime < time / interval) {d : Nat} {cleared : Nat → Nat}
    (target : time / interval % ncounters = (c.curtime + d) % ncounters)
    (near : time / interval ≤ c.curtime + ncounters → c.curtime + d = time / interval)
    (whole : ncounters ∣ time / interval - c.curtime → d = ncounters)
    (turns : front = [] ∨ time / interval ≤ c.curtime + ncounters ∨
      ncounters ∣ time / interval - c.curtime)
    (zeros : ∀ j, 1 ≤ j → j < d → cleared ((c.curtime + j) % ncounters) = 0)
    (kept : ∀ slot, (∀ j, 1 ≤ j → j < d → slot ≠ (c.curtime + j) % ncounters) →
      cleared slot = c.counters slot) (positive : 0 < ncounters) :
    Counted ncounters interval (front ++ [time])
      (Counters.count ⟨time / interval, time / interval % ncounters,
        update cleared (time / interval % ncounters) 0⟩) where
  past := by
    intro other mem
    rcases List.mem_append.mp mem with earlier | this
    · exact (counted.past other earlier).trans less.le
    · rw [List.mem_singleton.mp this]
      exact Nat.le_refl _
  last := by
    intro other mem
    rw [List.getLast?_concat, Option.mem_some_iff] at mem
    exact mem ▸ rfl
  slot := rfl
  window := by
    intro k low high
    change k ≤ time / interval at low
    change time / interval < k + ncounters at high
    change update (update cleared _ 0) _
      ((update cleared (time / interval % ncounters) 0 _ + 1) % 2 ^ 64) _ = _
    rcases Nat.eq_or_lt_of_le low with rfl | before
    · rw [update_self, update_self, hits_self,
        hits_eq_zero counted.past less]
      rfl
    · rw [update_of_ne (mod_ne before high), update_of_ne (mod_ne before high),
        hits_of_ne (by omega)]
      by_cases earlier : k ≤ c.curtime
      · -- the slot is behind the target, so that the loop did not come to it
        have exactly := near (by omega)
        rw [kept, counted.window k earlier (by omega)]
        intro j some_ between
        exact mod_ne (by omega) (by omega)
      · have skipped : c.curtime < k := Nat.lt_of_not_le earlier
        obtain ⟨j, some_, turn, place, nearer, -⟩ := exists_distance positive skipped
        rw [hits_eq_zero counted.past skipped, place]
        rcases turns with nil | close | divides
        · by_cases reached : ∃ i, 1 ≤ i ∧ i < d ∧
              (c.curtime + j) % ncounters = (c.curtime + i) % ncounters
          · obtain ⟨i, start, between, equal⟩ := reached
            rw [equal]
            exact zeros i start between
          · rw [kept, counted.empty nil, Counters.init]
            intro i start between equal
            exact reached ⟨i, start, between, equal⟩
        · have exactly := near close
          have := nearer (by omega)
          exact zeros j some_ (by omega)
        · have all := whole divides
          refine zeros j some_ (Nat.lt_of_le_of_ne (all ▸ turn) fun last => ?_)
          exact mod_ne before high (place.trans (last ▸ target.symm))
  empty := fun nil => absurd nil (by simp)

theorem Counted.step (counted : Counted ncounters interval front c) (length : 0 < interval)
    (positive : 0 < ncounters) (small : ncounters < 2 ^ 32)
    (ordered : c.curtime ≤ time / interval) (uncut : Uncut ncounters interval time)
    (turns : front = [] ∨ time / interval ≤ c.curtime + ncounters ∨
      ncounters ∣ time / interval - c.curtime)
    (few : hits interval (front ++ [time]) (time / interval) < 2 ^ 64) :
    ∃ c', xcCountersInc ncounters interval c time = some c' ∧
      Counted ncounters interval (front ++ [time]) c' := by
  rw [xcCountersInc]
  simp only [if_neg length.ne']
  rcases Nat.eq_or_lt_of_le ordered with same | less
  · rw [if_neg (by omega)]
    exact ⟨_, rfl, counted.same same.symm few⟩
  · obtain ⟨d, some_, turn, target, near, whole⟩ := exists_distance positive less
    obtain ⟨cleared, result, zeros, kept⟩ :=
      clearSlots_spec positive small some_ turn c.curtime ncounters turn c.counters
    rw [if_pos less, uncut, counted.slot, advanceWrapped_mod positive small, target, result,
      ← target]
    exact ⟨_, rfl, counted.later less target near whole turns zeros kept positive⟩

end

variable {ncounters interval : Nat}

/-- **What a run keeps; the induction is on the hits, from the last.** -/
theorem run_counted (length : 0 < interval) (positive : 0 < ncounters)
    (small : ncounters < 2 ^ 32) (times : List Nat) (sorted : times.Pairwise (· ≤ ·))
    (uncut : ∀ time ∈ times, Uncut ncounters interval time)
    (turns : times.IsChain (Turns ncounters interval)) (few : ∀ k, hits interval times k < 2 ^ 64) :
    ∃ c, run ncounters interval times = some c ∧ Counted ncounters interval times c := by
  induction times using List.reverseRecOn with
  | nil => exact ⟨Counters.init, rfl, counted_init positive⟩
  | append_singleton front time ih =>
    obtain ⟨before, -, after⟩ := List.pairwise_append.mp sorted
    obtain ⟨chained, -, link⟩ := List.isChain_append.mp turns
    obtain ⟨c, result, counted⟩ := ih before
      (fun other mem => uncut other (List.mem_append_left _ mem)) chained
      fun k => by
        have := few k
        rw [hits_append] at this
        omega
    have ordered : c.curtime ≤ time / interval := by
      rcases List.eq_nil_or_concat' front with nil | ⟨rest, last, rfl⟩
      · rw [counted.empty nil]
        exact Nat.zero_le _
      · rw [← counted.last last (by simp)]
        exact Nat.div_le_div_right (after last (by simp) time (by simp))
    have next : front = [] ∨ time / interval ≤ c.curtime + ncounters ∨
        ncounters ∣ time / interval - c.curtime := by
      rcases List.eq_nil_or_concat' front with nil | ⟨rest, last, rfl⟩
      · exact Or.inl nil
      · have equal := counted.last last (by simp)
        rw [← equal]
        exact Or.inr (link last (by simp) time (by simp))
    obtain ⟨c', step, counted'⟩ := counted.step length positive small ordered
      (uncut time (by simp)) next (few _)
    refine ⟨c', ?_, counted'⟩
    rw [run, List.foldlM_append, ← run, result]
    simpa using step

/-- **The counters are a sliding window**, where every hit comes in a turn from the one before or
whole turns after it, no number of an interval is cut to another slot, and no interval has `2 ^ 64`
hits. -/
theorem slidingWindow_of_turns (length : 0 < interval) (positive : 0 < ncounters)
    (small : ncounters < 2 ^ 32) {times : List Nat} (sorted : times.Pairwise (· ≤ ·))
    (uncut : ∀ time ∈ times, Uncut ncounters interval time)
    (turns : times.IsChain (Turns ncounters interval)) (few : ∀ k, hits interval times k < 2 ^ 64) :
    SlidingWindow ncounters interval times := by
  rintro front back rfl
  obtain ⟨before, -, -⟩ := List.pairwise_append.mp sorted
  obtain ⟨chained, -, -⟩ := List.isChain_append.mp turns
  obtain ⟨c, result, counted⟩ := run_counted length positive small front before
    (fun time member => uncut time (List.mem_append_left _ member)) chained
    fun k => by
      have := few k
      rw [hits, List.countP_append] at this
      exact Nat.lt_of_le_of_lt (Nat.le_add_right _ _) this
  refine ⟨c, result, fun last member k low high => ?_⟩
  rw [counted.last last member] at low high
  exact counted.window k low high

theorem slidingWindow_seconds : SlidingWindow 5 1 [100, 103, 103, 107] := by
  apply slidingWindow_of_turns (by decide) (by decide) (by decide) (by simp)
  · simp [Uncut]
  · simp [Turns]
  · intro k
    exact Nat.lt_of_le_of_lt List.countP_le_length (by decide)

/-- The hit of the first second is still there when that second is long past. -/
theorem not_slidingWindow : ¬ ∀ ncounters interval times, 0 < interval → 0 < ncounters →
    ncounters < 2 ^ 32 → List.Pairwise (· ≤ ·) times → SlidingWindow ncounters interval times := by
  intro all
  obtain ⟨c, result, window⟩ :=
    all 5 1 [1, 8] (by decide) (by decide) (by decide) (by simp) [1, 8] [] rfl
  have stale : (run 5 1 [1, 8]).map (fun c => c.counters 1) = some 1 := rfl
  rw [result] at stale
  have empty := window 8 rfl 6 (by decide) (by decide)
  rw [show hits 1 [1, 8] 6 = 0 from rfl] at empty
  exact absurd ((Option.some_inj.mp stale).symm.trans empty) (by decide)

end PhpExts.XCache.HitCounters
