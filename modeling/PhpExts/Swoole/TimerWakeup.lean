import PhpExts.Swoole.TimerSelect

/-!
# The wake-up for the timers

`swTimer_add` arms the system's timer when the new timer is shorter than `_next_msec`, and
`swTimer_select` arms it for the timer that is due next, but leaves `_next_msec` alone then.
`swSystemTimer_set` does nothing when the interval is the one that it has set before.

The wake-up comes in time for every timer, if no timer is added that the armed wake-up
misses, or for which one that is armed in time for another is given up, and if
`swTimer_select` takes no time (`wakes_of_armed`).
-/

namespace PhpExts.Swoole.Timer

variable {timer : Timer} {entries : List (Entry TimerPtr)} {plan : Plan} {now : Int}

def Wakes (timer : Timer) : Prop :=
  ∀ entry ∈ timer.map, ∃ expiry, timer.system.expiry = some expiry ∧
    expiry ≤ (timer.tnodes entry.2).execMsec

/-! ## The interval that has been set -/

structure Ticks (system : SystemTimer) (clock : Int) : Prop where
  period : 0 < system.currentInterval → system.period = system.currentInterval
  expiry : 0 < system.currentInterval →
    ∃ expiry, system.expiry = some expiry ∧ expiry ≤ clock + system.currentInterval

variable {system : SystemTimer}

theorem Ticks.later (ticks : Ticks system now) {later : Int} (le : now ≤ later) : Ticks system later where
  period := ticks.period
  expiry := fun positive => by
    obtain ⟨expiry, armed, soon⟩ := ticks.expiry positive
    exact ⟨expiry, armed, by omega⟩

theorem Ticks.set (ticks : Ticks system now) (newInterval : Int) :
    Ticks (system.set now newInterval) now := by
  rw [SystemTimer.set]
  split
  · exact ticks
  · refine ⟨fun _ => rfl, fun positive => ⟨now + newInterval, ?_, le_rfl⟩⟩
    have positive : 0 < newInterval := positive
    by_cases timerfd : system.useTimerfd = true
    · simp only [timerfd, if_true, positive.le]
    · simp only [timerfd, Bool.false_eq_true, if_false, positive, if_true]

theorem Ticks.elapse (ticks : Ticks system now) {later : Int} (le : now ≤ later) :
    Ticks (system.elapse later) later := by
  rw [SystemTimer.elapse]
  split
  · exact ticks.later le
  · rename_i expiry armed
    split
    · exact ticks.later le
    · rename_i past
      split
      · rename_i periodic
        refine ⟨ticks.period, fun positive => ⟨_, rfl, ?_⟩⟩
        have period := ticks.period positive
        have whole := Int.mul_ediv_self_le (x := later - expiry) (ne_of_gt periodic)
        simp only
        rw [add_mul, one_mul, mul_comm, ← period]
        omega
      · rename_i single
        exact ⟨ticks.period, fun positive => absurd (ticks.period positive ▸ positive) single⟩

theorem Ticks.expiry_le (ticks : Ticks system now) {newInterval : Int} (positive : 0 < newInterval) :
    ∃ expiry, (system.set now newInterval).expiry = some expiry ∧ expiry ≤ now + newInterval := by
  have same : (system.set now newInterval).currentInterval = newInterval := by
    rw [SystemTimer.set]
    split
    · rename_i same
      exact same.symm
    · rfl
  have later := (ticks.set newInterval).expiry
  rw [same] at later
  exact later positive

theorem system_swTimerAdd (timer : Timer) (now msec : Int) (interval : Bool) :
    (swTimerAdd timer now msec interval).1.system =
      if 0 ≤ now ∧ (timer.nextMsec < 0 ∨ msec < timer.nextMsec) then timer.system.set now msec
      else timer.system := by
  rw [swTimerAdd]
  by_cases past : now < 0
  · rw [if_pos past, if_neg fun both => absurd past (Int.not_lt.mpr both.1)]
  · rw [if_neg past]
    simp only [Int.not_lt.mp past, true_and]
    split <;> exact apply_ite Timer.system _ _ _

theorem ticks_call (ticks : Ticks timer.system now) (call : TimerCall) :
    Ticks (timer.call now call).1.system now := by
  cases call with
  | add msec interval =>
    rw [Timer.call, system_swTimerAdd]
    split
    · exact ticks.set msec
    · exact ticks
  | del tnode =>
    rw [Timer.call, swTimerDel]
    split
    · exact ticks
    · split
      · exact ticks
      · split <;> exact ticks

theorem ticks_runCalls (calls : List (Int × TimerCall)) (ticks : Ticks timer.system now)
    (times : ∀ call ∈ calls, call.1 = now) : Ticks (runCalls calls timer).timer.system now := by
  induction calls generalizing timer with
  | nil => exact ticks
  | cons call calls ih =>
    refine ih ?_ fun call mem => times call (.tail _ mem)
    rw [times call (.head _)]
    exact ticks_call ticks call.2

theorem ticks_selectLoop (rounds : Nat) (callbacks : List (List (Int × TimerCall)))
    (ticks : Ticks timer.system now) (times : ∀ calls ∈ callbacks, ∀ call ∈ calls, call.1 = now) :
    Ticks (selectLoop now rounds callbacks timer).timer.system now := by
  induction rounds generalizing callbacks timer with
  | zero => exact ticks
  | succ rounds ih =>
    rw [selectLoop]
    split
    · exact ticks
    · dsimp only
      split
      · exact ticks
      · refine ih _ ?_ fun calls mem => times calls (List.mem_of_mem_tail mem)
        have times₁ : ∀ call ∈ callbacks.headD [], call.1 = now := by
          cases callbacks with
          | nil => exact fun call impossible => absurd impossible List.not_mem_nil
          | cons calls others => exact times calls (.head _)
        have returned : Ticks (callback now (timer.heap.data ‹NodePtr›) (callbacks.headD [])
            timer).timer.system now := by
          rw [callback]
          split
          · exact ticks
          · exact ticks_runCalls _ (@id (Ticks timer.system now) ticks) times₁
        rw [finish]
        split <;> exact returned

/-- A new timer arms the wake-up and none is due before, or the interval has been set
already, or the wake-up that is armed comes in time. -/
def Arms (timer : Timer) (now : Int) : TimerCall → Prop
  | .add msec _ =>
    0 < msec ∧
      if timer.nextMsec < 0 ∨ msec < timer.nextMsec then
        msec = timer.system.currentInterval ∨
          ∀ entry ∈ timer.map, now + msec ≤ (timer.tnodes entry.2).execMsec
      else ∃ expiry, timer.system.expiry = some expiry ∧ expiry ≤ now + msec
  | .del _ => True

theorem wakes_add (agrees : Agrees timer entries) {msec : Int} {interval : Bool} (time : 0 ≤ now)
    (fits : Fits timer now (.add msec interval)) (arms : Arms timer now (.add msec interval))
    (ticks : Ticks timer.system now) (wakes : Wakes timer) :
    Wakes (swTimerAdd timer now msec interval).1 := by
  obtain ⟨positive, arms⟩ := arms
  obtain ⟨size, -, -, added⟩ := swTimerAdd_eq agrees interval time fits.2.2.2.1
  have system := system_swTimerAdd timer now msec interval
  rw [added] at system ⊢
  have new : ((timer.withNode now msec interval size).tnodes timer.nextTnode).execMsec = now + msec := by
    have newer : (timer.withNode now msec interval size).tnodes timer.nextTnode =
        ⟨timer.heap.nextPtr, now + msec, if interval then asUInt64 msec % 2 ^ 32 else 0,
          timer.newId, false⟩ := Function.update_self _ _ _
    rw [newer]
  have old : ∀ entry ∈ timer.map, (timer.withNode now msec interval size).tnodes entry.2 =
      timer.tnodes entry.2 := by
    intro entry mem
    obtain ⟨held, member', rfl⟩ := List.mem_map.mp (agrees.map.mem_iff.mp mem)
    exact Function.update_of_ne (Nat.ne_of_lt (agrees.allocated held member')) _ _
  have all (expiry : Int) (armed : (timer.withNode now msec interval size).system.expiry = some expiry)
      (soon : expiry ≤ now + msec)
      (others : ∀ entry ∈ timer.map, expiry ≤ (timer.tnodes entry.2).execMsec) :
      Wakes (timer.withNode now msec interval size) := by
    intro entry mem
    rcases List.mem_cons.mp mem with rfl | member'
    · exact ⟨expiry, armed, soon.trans_eq new.symm⟩
    · refine ⟨expiry, armed, ?_⟩
      rw [old entry member']
      exact others entry member'
  simp only [time, true_and] at system
  by_cases shorter : timer.nextMsec < 0 ∨ msec < timer.nextMsec
  · rw [if_pos shorter] at arms system
    obtain ⟨expiry, armed, soon⟩ := ticks.expiry_le positive
    refine all expiry (by rw [system]; exact armed) soon fun entry mem => ?_
    rcases arms with same | first
    · obtain ⟨expiry', armed', before⟩ := wakes entry mem
      rw [SystemTimer.set, if_pos same] at armed
      obtain rfl := Option.some.inj (armed.symm.trans armed')
      exact before
    · exact soon.trans (first entry mem)
  · rw [if_neg shorter] at arms system
    obtain ⟨expiry, armed, soon⟩ := arms
    refine all expiry (by rw [system]; exact armed) soon fun entry mem => ?_
    obtain ⟨expiry', armed', before⟩ := wakes entry mem
    obtain rfl := Option.some.inj (armed.symm.trans armed')
    exact before

theorem wakes_del (wakes : Wakes timer) (tnode : TimerPtr) : Wakes (swTimerDel timer tnode).1 := by
  rw [swTimerDel]
  split
  · exact wakes
  · split
    · intro entry mem
      obtain ⟨expiry, armed, before⟩ := wakes entry mem
      refine ⟨expiry, armed, ?_⟩
      by_cases here : entry.2 = tnode
      · simpa only [here, Function.update_self] using before
      · simpa only [Function.update_of_ne here] using before
    · split
      · exact wakes
      · exact fun entry mem => wakes entry (List.mem_of_mem_eraseP mem)

theorem wakes_select (follows : Follows timer plan entries) (idle : plan.calling = none)
    (time : 0 ≤ now) (limit : now < 2 ^ 63) {callbacks : List (List (Int × TimerCall))}
    (times : ∀ calls ∈ callbacks, ∀ call ∈ calls, call.1 = now)
    (fits : ∀ call ∈ (swTimerSelect timer now now callbacks).calls, Fits call.1 call.2.1 call.2.2)
    (ticks : Ticks timer.system now) :
    Ticks (swTimerSelect timer now now callbacks).timer.system now ∧
      Wakes (swTimerSelect timer now now callbacks).timer := by
  have future : ¬ now < 0 := Int.not_lt.mpr time
  have enough := follows.rounds now callbacks
  have ticks' := ticks_selectLoop (timer.heap.num + (callbacks.map List.length).sum) callbacks
    ticks times
  rw [calls_swTimerSelect timer now now callbacks time] at fits
  obtain ⟨plan', entries', -, follows', idle', none⟩ := selectLoop_follows _ callbacks follows idle
    time limit (fun calls mem call member' => (times calls mem call member').ge) fits enough
  have agrees := follows'.agrees
  rw [swTimerSelect, if_neg future]
  rcases agrees.top with ⟨top, rfl⟩ | ⟨entry, mem, top, root, data, first⟩
  · simp only [top]
    refine ⟨ticks'.set (-1), fun entry mem => ?_⟩
    have mem := agrees.map.mem_iff.mp mem
    exact absurd mem List.not_mem_nil
  · simp only [top, data]
    have exec := agrees.exec entry mem
    have late : now < ((selectLoop now (timer.heap.num + (callbacks.map List.length).sum) callbacks
        timer).timer.tnodes entry.data).execMsec :=
      none _ (follows'.pending ▸ List.mem_map_of_mem mem)
    obtain ⟨expiry, armed, soon⟩ := ticks'.expiry_le (Int.sub_pos.mpr late)
    refine ⟨ticks'.set _, fun other member' => ⟨expiry, armed, ?_⟩⟩
    obtain ⟨held, member'', rfl⟩ := List.mem_map.mp (agrees.map.mem_iff.mp member')
    have exec' := agrees.exec held member''
    have := first held member''
    simp only [keyed]
    omega

/-- A call of `swTimer_add` outside of a callback arms the wake-up in time, and
`swTimer_select` returns at the time that it has read. -/
def Run.InTime (run : Run) : Op → Prop
  | .call now call => Arms run.timer now call
  | .select now later _ => later = now

/-- **In every run whose calls fit and whose additions arm the wake-up in time, the wake-up
that is armed comes no later than any timer is due.** -/
theorem wakes_of_inTime {msec : Int} {useTimerfd : Bool} {memory : Timer} {run : Run}
    (reached : Run.Reached msec useTimerfd memory
      (fun run op => run.Timed op ∧ run.Fit op ∧ run.InTime op) run) : Wakes run.timer := by
  have invariant : Wakes run.timer ∧ Ticks run.timer.system run.clock ∧
      ∃ plan entries, plan.calling = none ∧ Follows run.timer plan entries := by
    induction reached with
    | start =>
      refine ⟨fun entry impossible => absurd impossible List.not_mem_nil, ⟨?_, ?_⟩, _, _, rfl,
        follows_start msec useTimerfd memory⟩
      · exact fun impossible => absurd impossible (lt_irrefl 0)
      · exact fun impossible => absurd impossible (lt_irrefl 0)
    | @step run op earlier admitted ih =>
      obtain ⟨wakes, ticks, plan, entries, idle, follows⟩ := ih
      obtain ⟨timed, fit, inTime⟩ := admitted
      obtain ⟨plan', entries', -, follows', idle'⟩ := Run.next_follows follows idle timed fit
      suffices both : Wakes (run.next op).timer ∧ Ticks (run.next op).timer.system (run.next op).clock from
        ⟨both.1, both.2, plan', entries', idle', follows'⟩
      cases op with
      | call now call =>
        have ticks := ticks.later timed.1
        refine ⟨?_, ticks_call ticks call⟩
        cases call with
        | add msec interval =>
          exact wakes_add follows.agrees timed.2.1 (fit _ (List.mem_singleton_self _)) inTime
            ticks wakes
        | del tnode => exact wakes_del wakes tnode
      | select now later callbacks =>
        obtain rfl : later = now := inTime
        have elapsed := ticks.elapse timed.1
        obtain ⟨-, time, limit, -, times⟩ := timed
        obtain ⟨ticks', wakes'⟩ := wakes_select
          (follows.setSystem run.timer.nextMsec (run.timer.system.elapse later)) idle time limit
          (fun calls member call member' => le_antisymm (times calls member call member').2
            (times calls member call member').1) fit elapsed
        exact ⟨wakes', ticks'⟩
  exact invariant.1

theorem wakes_shorter : Wakes (Run.after 100 [.call 0 (.add 100 false), .call 0 (.add 50 false),
    .select 50 50 []]).timer := by
  have initial : Run.Reached 100 true blank
      (fun run op => run.Timed op ∧ run.Fit op ∧ run.InTime op) (Run.after 100 []) := .start
  have first := initial.step (.call 0 (.add 100 false)) ⟨by decide, by decide, by decide, by
    rw [if_neg (by decide)]
    exact ⟨100, rfl, by decide⟩⟩
  have second := first.step (.call 0 (.add 50 false)) ⟨by decide, by decide, by decide, by
    rw [if_pos (by decide)]
    exact .inr (by decide)⟩
  exact wakes_of_inTime (second.step (.select 50 50 []) ⟨by decide, by decide, rfl⟩)

/-- Behind the first of two timers the wake-up is armed for the second, in 900 ms, but
`_next_msec` still is 100, and a timer for 500 ms does not arm it. -/
theorem not_wakes_stale : ∃ run, Run.Reached 100 true blank
    (fun run op => run.Timed op ∧ run.Fit op) run ∧ ¬ Wakes run.timer := by
  have initial : Run.Reached 100 true blank (fun run op => run.Timed op ∧ run.Fit op)
      (Run.after 100 []) := .start
  have first := initial.step (.call 0 (.add 100 false)) ⟨by decide, by decide⟩
  have second := first.step (.call 0 (.add 1000 false)) ⟨by decide, by decide⟩
  have third := second.step (.select 100 100 []) ⟨by decide, by decide⟩
  refine ⟨_, third.step (.call 100 (.add 500 false)) ⟨by decide, by decide⟩, fun wakes => ?_⟩
  obtain ⟨expiry, armed, before⟩ := wakes (3, 2) (by decide)
  obtain rfl : expiry = 1000 := Option.some.inj armed.symm
  exact absurd before (by decide)

end PhpExts.Swoole.Timer
