import Mathlib.Order.OrderIsoNat
import PhpExts.Swoole.ReactorThreadSend

/-!
# Whether a write handler returns

`swReactor_onWrite` and `swReactorThread_onWrite` with an endless sequence of replies to their
calls, all of which fail from some point on. The loop stays where it is for a range of a file that
the socket takes nothing of, since `swConnection_onSendfile` does not tell its caller to wait, and
for data after an error that neither closes nor waits. Where it never stays like that it comes to
an end (`onWrite_returns_iff`).
-/

namespace PhpExts.Swoole.WriteReturns

open PhpExts.Swoole.OutBuffer PhpExts.Swoole.OutBuffer.Connection
open PhpExts.Swoole.ReactorWrite (Socket)

/-- What a call of `send` or `sendfile` comes to. For `EFAULT` `swConnection_error` aborts. -/
inductive Reply where
  | result (sent : SendResult)
  | fault

def Reply.Fails : Reply → Prop
  | .result sent => sent.accepted = none
  | .fault => True

def NotWritable (result : SendResult) : Prop :=
  result.accepted = none ∧ connectionError result.errno = .wait

def OtherError (result : SendResult) : Prop :=
  result.accepted = none ∧ connectionError result.errno = .error

def replied (conn : Connection) : List Reply → Option Drained
  | [] => some (drain conn [])
  | reply :: replies =>
    match drain conn [] with
    | .unfinished conn =>
      match reply with
      | .fault => none
      | .result sent =>
        match drain conn [sent] with
        | .unfinished conn => replied conn replies
        | drained => some drained
    | drained => some drained

def Idle : List Trunk → Prop
  | [] => True
  | trunk :: rest => trunk.isClose = true ∨ trunk.sent = true ∧ Idle rest

inductive Progress where
  | returned
  | aborted
  | calls (conn : Connection)

def Progress.ofDrained : Option Drained → Progress
  | none => .aborted
  | some (.unfinished conn) => .calls conn
  | some _ => .returned

def reactorOnWrite (s : Socket) (replies : List Reply) : Progress :=
  .ofDrained (replied s.conn replies)

/-- `swReactorThread_onWrite`; a notification and a forced close come before the loop. -/
def reactorThreadOnWrite (config : ReactorThreadSend.Config) (s : ReactorThreadSend.Session)
    (replies : List Reply) : Progress :=
  if s.connectNotify ∨ s.closeNotify ∨ config.disableNotify ∧ s.closeForce then .returned
  else .ofDrained (replied s.conn replies)

def first (replies : Nat → Reply) (n : Nat) : List Reply := (List.range n).map replies

def FailsAtLast (replies : Nat → Reply) : Prop := ∃ m, ∀ n, m ≤ n → (replies n).Fails

/-- A handler returns after so many replies, and does at the first one that tells it that the
socket is not writable. -/
structure Returns (handler : List Reply → Progress) (replies : Nat → Reply) : Prop where
  returns : ∃ n, handler (first replies n) = .returned
  notWritable : ∀ n conn result, handler (first replies n) = .calls conn →
    replies n = .result result → NotWritable result →
    handler (first replies (n + 1)) = .returned

/-- No call stays where it is: none for a range of a file finds the socket not writable, but where
the range is at its end and no call follows; the calls for data do not meet other errors from some
point on; and none faults. -/
structure Moves (handler : List Reply → Progress) (replies : Nat → Reply) : Prop where
  file : ∀ n conn contents offset length rest result,
    handler (first replies n) = .calls conn →
    conn.trunks = .sendfile contents offset length :: rest →
    replies n = .result result → NotWritable result → length ≤ offset ∧ Idle rest
  data : ¬ ∃ m, ∀ n, m ≤ n → ∃ conn bytes offset rest result,
    handler (first replies n) = .calls conn ∧ conn.trunks = .data bytes offset :: rest ∧
      replies n = .result result ∧ OtherError result
  fault : ∀ n conn, handler (first replies n) = .calls conn → replies n ≠ .fault

structure AtCall (conn : Connection) (trunk : Trunk) (rest : List Trunk) : Prop where
  trunks : conn.trunks = trunk :: rest
  notClose : trunk.isClose = false
  notSent : trunk.sent = false

variable {conn : Connection}

theorem drain_atCall {conn' : Connection} {results : List SendResult}
    (drained : drain conn results = .unfinished conn') : ∃ trunk rest, AtCall conn' trunk rest := by
  fun_induction drain conn results with
  | case1 conn results nothing => cases drained
  | case2 conn results rest atClose => cases drained
  | case3 conn results trunk rest notClose trunks sent ih => exact ih drained
  | case4 conn trunk rest notClose trunks notSent =>
    obtain rfl := Drained.unfinished.inj drained
    refine ⟨trunk, rest, trunks, ?_, by simpa using notSent⟩
    cases trunk with
    | data | sendfile => rfl
    | close => exact absurd rfl notClose
  | case5 conn trunk rest notClose trunks notSent result results sent goes ih => exact ih drained
  | case6 conn trunk rest notClose trunks notSent result results sent stops lost => cases drained
  | case7 conn trunk rest notClose trunks notSent result results sent stops _ waits => cases drained
  | case8 conn trunk rest notClose trunks notSent result results sent stops _ _ ih =>
    exact ih drained

theorem AtCall.drain_nil {trunk : Trunk} {rest : List Trunk}
    (atCall : AtCall conn trunk rest) : drain conn [] = .unfinished conn := by
  have trunks := atCall.trunks
  rw [drain]
  split
  next nothing => rw [nothing] at trunks; cases trunks
  next rest' atClose =>
    rw [atClose] at trunks
    obtain ⟨rfl, -⟩ := List.cons.inj trunks
    cases atCall.notClose
  next trunk' rest' _ isTrunk =>
    rw [isTrunk] at trunks
    obtain ⟨rfl, -⟩ := List.cons.inj trunks
    rw [if_neg (by simp [atCall.notSent])]

theorem AtCall.drain_cons {trunk : Trunk} {rest : List Trunk}
    (atCall : AtCall conn trunk rest) (result : SendResult) (results : List SendResult) :
    drain conn (result :: results) =
      if (conn.sendTrunk result trunk).2 then drain (conn.sendTrunk result trunk).1 results
      else if (conn.sendTrunk result trunk).1.closeWait then .close (conn.sendTrunk result trunk).1
      else if (conn.sendTrunk result trunk).1.sendWait then .waits (conn.sendTrunk result trunk).1
      else drain (conn.sendTrunk result trunk).1 results := by
  have trunks := atCall.trunks
  rw [drain]
  split
  next nothing => rw [nothing] at trunks; cases trunks
  next rest' atClose =>
    rw [atClose] at trunks
    obtain ⟨rfl, -⟩ := List.cons.inj trunks
    cases atCall.notClose
  next trunk' rest' _ isTrunk =>
    rw [isTrunk] at trunks
    obtain ⟨rfl, -⟩ := List.cons.inj trunks
    rw [if_neg (by simp [atCall.notSent])]

/-! ## One more reply -/

def Progress.step : Progress → Reply → Progress
  | .calls _, .fault => .aborted
  | .calls conn, .result sent => .ofDrained (some (drain conn [sent]))
  | .returned, _ => .returned
  | .aborted, _ => .aborted

theorem ofDrained_eq_calls {drained : Option Drained} :
    Progress.ofDrained drained = .calls conn ↔ drained = some (.unfinished conn) := by
  cases drained with
  | none => simp [Progress.ofDrained]
  | some drained => cases drained <;> simp [Progress.ofDrained]

theorem replied_concat (conn : Connection) (replies : List Reply) (reply : Reply) :
    Progress.ofDrained (replied conn (replies ++ [reply])) =
      (Progress.ofDrained (replied conn replies)).step reply := by
  induction replies generalizing conn with
  | nil =>
    rw [List.nil_append, replied, replied]
    cases here : drain conn [] with
    | empty | waits | close => cases reply <;> rfl
    | unfinished conn' =>
      cases reply with
      | fault => rfl
      | result sent =>
        simp only [Progress.ofDrained, Progress.step]
        cases next : drain conn' [sent] with
        | empty | waits | close => rfl
        | unfinished conn'' =>
          obtain ⟨trunk, rest, atCall⟩ := drain_atCall next
          simp only [replied, atCall.drain_nil]
  | cons earlier replies ih =>
    rw [List.cons_append, replied, replied]
    cases here : drain conn [] with
    | empty | waits | close => cases reply <;> rfl
    | unfinished conn' =>
      cases earlier with
      | fault => cases reply <;> rfl
      | result sent =>
        cases next : drain conn' [sent] with
        | empty | waits | close => cases reply <;> simp [Progress.ofDrained, Progress.step, next]
        | unfinished conn'' =>
          simp only [next]
          exact ih conn''

theorem replied_atCall {conn' : Connection} {replies : List Reply}
    (calls : Progress.ofDrained (replied conn replies) = .calls conn') :
    ∃ trunk rest, AtCall conn' trunk rest := by
  rw [ofDrained_eq_calls] at calls
  induction replies generalizing conn with
  | nil =>
    rw [replied, Option.some.injEq] at calls
    exact drain_atCall calls
  | cons reply replies ih =>
    rw [replied] at calls
    cases here : drain conn [] with
    | empty | waits | close => rw [here] at calls; cases calls
    | unfinished conn'' =>
      rw [here] at calls
      cases reply with
      | fault => cases calls
      | result sent =>
        simp only at calls
        cases next : drain conn'' [sent] with
        | empty | waits | close => rw [next] at calls; cases calls
        | unfinished conn''' =>
          rw [next] at calls
          exact ih calls

/-! ## What a failing call does -/

section

variable {conn : Connection} {trunk : Trunk} {rest : List Trunk} {sent : SendResult}

theorem setHead_self (trunks : conn.trunks = trunk :: rest) : conn.setHead trunk = conn := by
  obtain ⟨buffer, sendWait, closeWait, accepted⟩ := conn
  cases buffer with
  | none => cases trunks
  | some buffer =>
    obtain ⟨length, trunks'⟩ := buffer
    obtain rfl : trunks' = trunk :: rest := trunks
    rfl

theorem onSendfile_fails {contents : Bytes} {offset length : Nat}
    (trunks : conn.trunks = .sendfile contents offset length :: rest)
    (failed : sent.accepted = none) : conn.onSendfile contents offset length sent =
      match connectionError sent.errno with
      | .error => (conn.popTrunk, true)
      | .close => ({ conn with closeWait := true }, false)
      | .wait => (if length ≤ offset then conn.popTrunk else conn, true) := by
  cases kind : connectionError sent.errno with
  | error => simp [onSendfile, failed, accept_nil, setHead_self trunks, kind]
  | close => simp [onSendfile, failed, accept_nil, setHead_self trunks, kind]
  | wait =>
    by_cases finished : length ≤ offset
    · simp [onSendfile, failed, accept_nil, setHead_self trunks, kind, finished]
    · simp [onSendfile, failed, accept_nil, setHead_self trunks, kind, finished]

theorem length_drain {conn' : Connection} {results : List SendResult}
    (drained : drain conn results = .unfinished conn') :
    conn'.trunks.length ≤ conn.trunks.length := by
  fun_induction drain conn results with
  | case1 conn results nothing => cases drained
  | case2 conn results rest atClose => cases drained
  | case3 conn results trunk rest notClose trunks sent ih =>
    refine (ih drained).trans ?_
    rw [trunks_popTrunk, List.length_tail]
    exact Nat.sub_le _ _
  | case4 conn trunk rest notClose trunks notSent =>
    obtain rfl := Drained.unfinished.inj drained
    exact Nat.le_refl _
  | case5 conn trunk rest notClose trunks notSent result results sent goes ih =>
    exact (ih drained).trans (length_sendTrunk trunks result)
  | case6 conn trunk rest notClose trunks notSent result results sent stops lost => cases drained
  | case7 conn trunk rest notClose trunks notSent result results sent stops _ waits => cases drained
  | case8 conn trunk rest notClose trunks notSent result results sent stops _ _ ih =>
    exact (ih drained).trans (length_sendTrunk trunks result)

theorem drain_idle {results : List SendResult} (nothing : results = []) :
    (∃ conn', drain conn results = .unfinished conn') ↔ ¬ Idle conn.trunks := by
  have isOpen (trunk : Trunk) (notClose : trunk ≠ .close) : trunk.isClose = false := by
    cases trunk with
    | data | sendfile => rfl
    | close => exact absurd rfl notClose
  fun_induction drain conn results with
  | case1 conn results empty => simp [empty, Idle]
  | case2 conn results rest atClose => simp [atClose, Idle, Trunk.isClose]
  | case3 conn results trunk rest notClose trunks sent ih =>
    refine (ih nothing).trans ?_
    simp [trunks_popTrunk, trunks, Idle, sent, isOpen trunk notClose]
  | case4 conn trunk rest notClose trunks notSent =>
    simp [trunks, Idle, isOpen trunk notClose, notSent]
  | case5 | case6 | case7 | case8 => cases nothing

theorem AtCall.data_error {bytes : Bytes} {offset : Nat}
    (atCall : AtCall conn (.data bytes offset) rest) (error : OtherError sent) :
    drain conn [sent] = .unfinished conn := by
  have stays : conn.bufferSend bytes offset sent = (conn, true) := by
    simp [bufferSend, error.1, error.2]
  rw [atCall.drain_cons, sendTrunk, stays]
  exact atCall.drain_nil

theorem AtCall.file_waits {contents : Bytes} {offset length : Nat}
    (atCall : AtCall conn (.sendfile contents offset length) rest) (waits : NotWritable sent) :
    drain conn [sent] = if length ≤ offset then drain conn.popTrunk [] else .unfinished conn := by
  rw [atCall.drain_cons, sendTrunk, onSendfile_fails atCall.trunks waits.1, waits.2]
  simp only [if_true]
  split
  · rfl
  · exact atCall.drain_nil

theorem AtCall.fails {conn' : Connection} (atCall : AtCall conn trunk rest)
    (failed : sent.accepted = none) (next : drain conn [sent] = .unfinished conn') :
    conn'.trunks.length < conn.trunks.length ∨
      (∃ bytes offset, trunk = .data bytes offset) ∧ OtherError sent ∨
      (∃ contents offset length, trunk = .sendfile contents offset length) ∧ NotWritable sent := by
  have pops {conn'} (popped : drain conn.popTrunk [] = .unfinished conn') :
      conn'.trunks.length < conn.trunks.length := by
    have shorter := length_drain popped
    rw [trunks_popTrunk, atCall.trunks, List.tail_cons] at shorter
    rw [atCall.trunks, List.length_cons]
    exact Nat.lt_succ_of_le shorter
  rw [atCall.drain_cons] at next
  cases kind : connectionError sent.errno with
  | error =>
    cases trunk with
    | data bytes offset => exact .inr (.inl ⟨⟨bytes, offset, rfl⟩, failed, kind⟩)
    | sendfile contents offset length =>
      rw [sendTrunk, onSendfile_fails atCall.trunks failed, kind] at next
      exact .inl (pops next)
    | close => cases atCall.notClose
  | close =>
    cases trunk with
    | data bytes offset => simp [sendTrunk, bufferSend, failed, kind] at next
    | sendfile contents offset length =>
      rw [sendTrunk, onSendfile_fails atCall.trunks failed, kind] at next
      simp at next
    | close => cases atCall.notClose
  | wait =>
    cases trunk with
    | data bytes offset =>
      simp only [sendTrunk, bufferSend, failed, kind] at next
      split at next
      case isTrue never => cases never
      case isFalse =>
        split at next
        · cases next
        · cases next
    | sendfile contents offset length =>
      exact .inr (.inr ⟨⟨contents, offset, length, rfl⟩, failed, kind⟩)
    | close => cases atCall.notClose

theorem AtCall.data_waits {bytes : Bytes} {offset : Nat}
    (atCall : AtCall conn (.data bytes offset) rest) (waits : NotWritable sent) :
    Progress.ofDrained (some (drain conn [sent])) = .returned := by
  rw [atCall.drain_cons]
  simp only [sendTrunk, bufferSend, waits.1, waits.2, Bool.false_eq_true, if_false, if_true]
  split
  · rfl
  · rfl

end

/-! ## When a handler returns -/

section

variable {conn : Connection} {replies : Nat → Reply}

theorem first_succ (n : Nat) : first replies (n + 1) = first replies n ++ [replies n] := by
  rw [first, List.range_succ, List.map_append]
  rfl

def loop (conn : Connection) (replies : List Reply) : Progress := .ofDrained (replied conn replies)

theorem loop_succ (conn : Connection) (replies : Nat → Reply) (n : Nat) :
    loop conn (first replies (n + 1)) = (loop conn (first replies n)).step (replies n) := by
  rw [first_succ]
  exact replied_concat conn (first replies n) (replies n)

theorem loop_settled {n m : Nat} (before : n ≤ m)
    (settled : ∀ conn', loop conn (first replies n) ≠ .calls conn') :
    loop conn (first replies m) = loop conn (first replies n) := by
  induction before with
  | refl => rfl
  | step _ ih =>
    rw [loop_succ, ih]
    cases here : loop conn (first replies n) with
    | calls conn' => exact absurd here (settled conn')
    | returned => rfl
    | aborted => rfl

theorem eventually_constant {lengths : Nat → Nat} {m : Nat}
    (falls : ∀ n, m ≤ n → lengths (n + 1) ≤ lengths n) :
    ∃ k, m ≤ k ∧ ∀ n, k ≤ n → lengths n = lengths k := by
  have antitone : Antitone fun n => lengths (m + n) :=
    antitone_nat_of_succ_le fun n => falls (m + n) (Nat.le_add_right m n)
  obtain ⟨k, constant⟩ := WellFoundedLT.antitone_chain_condition antitone
  refine ⟨m + k, Nat.le_add_right m k, fun n later => ?_⟩
  obtain ⟨d, rfl⟩ := Nat.exists_eq_add_of_le later
  rw [Nat.add_assoc]
  exact (constant (k + d) (Nat.le_add_right k d)).symm

theorem Moves.returned (moves : Moves (loop conn) replies) {n : Nat} {conn' : Connection}
    {sent : SendResult} (calls : loop conn (first replies n) = .calls conn')
    (reply : replies n = .result sent) (waits : NotWritable sent) :
    loop conn (first replies (n + 1)) = .returned := by
  obtain ⟨trunk, rest, atCall⟩ := replied_atCall calls
  rw [loop_succ, calls, reply, Progress.step]
  cases trunk with
  | data bytes offset => exact atCall.data_waits waits
  | sendfile contents offset length =>
    obtain ⟨finished, idle⟩ := moves.file n conn' _ _ _ _ sent calls atCall.trunks reply waits
    have popped : Idle conn'.popTrunk.trunks := by
      rwa [trunks_popTrunk, atCall.trunks, List.tail_cons]
    rw [atCall.file_waits waits, if_pos finished]
    cases next : drain conn'.popTrunk [] with
    | empty | waits | close => rfl
    | unfinished conn'' => exact absurd popped ((drain_idle rfl).mp ⟨conn'', next⟩)
  | close => cases atCall.notClose

theorem Moves.shorter (moves : Moves (loop conn) replies) {n : Nat} {before after : Connection}
    (fails : (replies n).Fails) (calls : loop conn (first replies n) = .calls before)
    (next : loop conn (first replies (n + 1)) = .calls after) :
    after.trunks.length < before.trunks.length ∨
      after = before ∧ ∃ bytes offset rest sent, before.trunks = .data bytes offset :: rest ∧
        replies n = .result sent ∧ OtherError sent := by
  obtain ⟨trunk, rest, atCall⟩ := replied_atCall calls
  cases reply : replies n with
  | fault => exact absurd reply (moves.fault n before calls)
  | result sent =>
    have failed : sent.accepted = none := by rwa [reply] at fails
    have stepped := next
    rw [loop_succ, calls, reply, Progress.step, ofDrained_eq_calls, Option.some.injEq] at stepped
    rcases atCall.fails failed stepped with shorter | ⟨⟨bytes, offset, rfl⟩, error⟩ |
      ⟨-, waits⟩
    · exact .inl shorter
    · rw [atCall.data_error error] at stepped
      exact .inr ⟨(Drained.unfinished.inj stepped).symm, bytes, offset, rest, sent,
        atCall.trunks, rfl, error⟩
    · rw [moves.returned calls reply waits] at next
      cases next

/-- **The loop returns, at once where the socket is not writable, exactly if it never stays.** -/
theorem loop_returns_iff (fails : FailsAtLast replies) :
    Returns (loop conn) replies ↔ Moves (loop conn) replies := by
  constructor
  · intro returns
    refine ⟨?_, ?_, ?_⟩
    · intro n conn' contents offset length rest sent calls trunks reply waits
      have returned := returns.notWritable n conn' sent calls reply waits
      obtain ⟨trunk, rest', atCall⟩ := replied_atCall calls
      obtain ⟨rfl, rfl⟩ := List.cons.inj (atCall.trunks.symm.trans trunks)
      rw [loop_succ, calls, reply, Progress.step, atCall.file_waits waits] at returned
      split at returned
      case isFalse => cases returned
      case isTrue finished =>
        refine ⟨finished, ?_⟩
        by_contra busy
        have popped : conn'.popTrunk.trunks = rest' := by
          rw [trunks_popTrunk, trunks, List.tail_cons]
        obtain ⟨conn'', next⟩ := (drain_idle rfl).mpr (popped ▸ busy)
        rw [next] at returned
        cases returned
    · rintro ⟨m, stays⟩
      obtain ⟨n, returned⟩ := returns.returns
      obtain ⟨conn', _, _, _, _, calls, -⟩ := stays (max m n) (le_max_left m n)
      rw [loop_settled (le_max_right m n) (by simp [returned]), returned] at calls
      cases calls
    · intro n conn' calls fault
      obtain ⟨k, returned⟩ := returns.returns
      have aborted : loop conn (first replies (n + 1)) = .aborted := by
        rw [loop_succ, calls, fault, Progress.step]
      rcases Nat.lt_or_ge n k with late | early
      · have settled := @loop_settled conn replies (n + 1) k late (by simp [aborted])
        rw [aborted, returned] at settled
        cases settled
      · rw [loop_settled early (by simp [returned]), returned] at calls
        cases calls
  · intro moves
    refine ⟨?_, fun n conn' sent calls reply waits => moves.returned calls reply waits⟩
    by_contra never
    rw [not_exists] at never
    have endless : ∀ n, ∃ conn', loop conn (first replies n) = .calls conn' := by
      intro n
      induction n with
      | zero =>
        cases here : loop conn (first replies 0) with
        | calls conn' => exact ⟨conn', rfl⟩
        | returned => exact absurd here (never 0)
        | aborted =>
          cases drained : drain conn [] <;>
            simp [loop, first, replied, Progress.ofDrained, drained] at here
      | succ n ih =>
        obtain ⟨before, calls⟩ := ih
        cases here : loop conn (first replies (n + 1)) with
        | calls conn' => exact ⟨conn', rfl⟩
        | returned => exact absurd here (never (n + 1))
        | aborted =>
          rw [loop_succ, calls] at here
          cases reply : replies n with
          | fault => exact absurd reply (moves.fault n before calls)
          | result sent =>
            rw [reply, Progress.step] at here
            cases drained : drain before [sent] <;> simp [Progress.ofDrained, drained] at here
    choose state calls using endless
    obtain ⟨m, fails⟩ := fails
    have step (n : Nat) (late : m ≤ n) :=
      moves.shorter (fails n late) (calls n) (calls (n + 1))
    obtain ⟨k, late, constant⟩ := @eventually_constant (fun n => (state n).trunks.length) m (by
      intro n late
      rcases step n late with shorter | ⟨same, -⟩
      · exact shorter.le
      · rw [same])
    apply moves.data
    refine ⟨k, fun n later => ?_⟩
    rcases step n (late.trans later) with shorter | ⟨-, bytes, offset, rest, sent, stays⟩
    · have now := constant n later
      have next := constant (n + 1) (later.trans (Nat.le_succ n))
      omega
    · exact ⟨state n, bytes, offset, rest, sent, calls n, stays⟩

/-- **Both handlers return, at once where the socket is not writable, exactly if no call stays where
it is.** -/
theorem onWrite_returns_iff (config : ReactorThreadSend.Config) (s : Socket)
    (session : ReactorThreadSend.Session) (fails : FailsAtLast replies) :
    (Returns (reactorOnWrite s) replies ↔ Moves (reactorOnWrite s) replies) ∧
      (Returns (reactorThreadOnWrite config session) replies ↔
        Moves (reactorThreadOnWrite config session) replies) := by
  refine ⟨loop_returns_iff fails, ?_⟩
  by_cases before : session.connectNotify ∨ session.closeNotify ∨
      config.disableNotify ∧ session.closeForce
  · have returned : reactorThreadOnWrite config session = fun _ => .returned := by
      funext replies
      rw [reactorThreadOnWrite, if_pos before]
    rw [returned]
    refine iff_of_true ⟨⟨0, rfl⟩, fun _ _ _ _ _ _ => rfl⟩ ⟨nofun, ?_, nofun⟩
    rintro ⟨m, stays⟩
    obtain ⟨_, _, _, _, _, calls, -⟩ := stays m (Nat.le_refl m)
    cases calls
  · have isLoop : reactorThreadOnWrite config session = loop session.conn := by
      funext replies
      rw [reactorThreadOnWrite, if_neg before]
      rfl
    rw [isLoop]
    exact loop_returns_iff fails

end

/-! ## The handlers of the runs -/

variable {conn : Connection}

theorem drain_empty (empty : conn.trunks = []) (results : List SendResult) :
    drain conn results = .empty conn := by
  rw [drain]
  split
  next => rfl
  next rest atClose => rw [empty] at atClose; cases atClose
  next trunk rest _ trunks => rw [empty] at trunks; cases trunks

theorem drain_close {rest : List Trunk} (atClose : conn.trunks = .close :: rest)
    (results : List SendResult) : drain conn results = .close conn := by
  rw [drain]
  split
  next empty => rw [empty] at atClose; cases atClose
  next => rfl
  next trunk rest' notClose trunks =>
    rw [atClose] at trunks
    exact absurd (List.cons.inj trunks).1.symm notClose

theorem drain_sent {trunk : Trunk} {rest : List Trunk}
    (trunks : conn.trunks = trunk :: rest) (sent : trunk.sent = true)
    (results : List SendResult) : drain conn results = drain conn.popTrunk results := by
  rw [drain]
  split
  next empty => rw [empty] at trunks; cases trunks
  next rest' atClose =>
    rw [atClose] at trunks
    obtain ⟨rfl, -⟩ := List.cons.inj trunks
    cases sent
  next trunk' rest' _ isTrunk =>
    rw [isTrunk] at trunks
    obtain ⟨rfl, -⟩ := List.cons.inj trunks
    rw [if_pos sent]

theorem drain_of_nil {nothing : List SendResult} (none : nothing = [])
    (results : List SendResult) : drain conn results = match drain conn nothing with
      | .unfinished conn => drain conn results
      | drained => drained := by
  fun_induction drain conn nothing with
  | case1 conn nothing empty => exact drain_empty empty results
  | case2 conn nothing rest atClose => exact drain_close atClose results
  | case3 conn nothing trunk rest notClose trunks sent ih =>
    exact (drain_sent trunks sent results).trans (ih none)
  | case4 conn trunk rest notClose trunks notSent => rfl
  | case5 | case6 | case7 | case8 => cases none

theorem AtCall.drain_cons_of_nil {trunk : Trunk} {rest : List Trunk}
    (atCall : AtCall conn trunk rest) (sent : SendResult) (results : List SendResult) :
    drain conn (sent :: results) = match drain conn [sent] with
      | .unfinished conn => drain conn results
      | drained => drained := by
  rw [atCall.drain_cons, atCall.drain_cons]
  split
  · exact drain_of_nil rfl results
  · split
    · rfl
    · split
      · rfl
      · exact drain_of_nil rfl results

theorem replied_results (conn : Connection) (results : List SendResult) :
    replied conn (results.map .result) = some (drain conn results) := by
  induction results generalizing conn with
  | nil => rfl
  | cons sent results ih =>
    rw [List.map_cons, replied, drain_of_nil rfl (sent :: results)]
    cases here : drain conn [] with
    | empty | waits | close => rfl
    | unfinished conn' =>
      obtain ⟨trunk, rest, atCall⟩ := drain_atCall here
      simp only [atCall.drain_cons_of_nil sent results]
      cases drain conn' [sent] with
      | empty | waits | close => rfl
      | unfinished conn'' => exact ih conn''

theorem reactorOnWrite_results (s : Socket) (results : List SendResult) :
    reactorOnWrite s (results.map .result) = match s.onWrite results with
      | .returned .. => .returned
      | .unfinished s => .calls s.conn := by
  rw [reactorOnWrite, replied_results, Socket.onWrite]
  cases drain s.conn results <;> rfl

theorem reactorThreadOnWrite_results (config : ReactorThreadSend.Config)
    (s : ReactorThreadSend.Session) (results : List SendResult) :
    reactorThreadOnWrite config s (results.map .result) = match s.onWrite config results with
      | .returned .. => .returned
      | .unfinished s => .calls s.conn := by
  rw [reactorThreadOnWrite, replied_results, ReactorThreadSend.Session.onWrite]
  by_cases connect : s.connectNotify = true
  · rw [if_pos (.inl connect), if_pos connect]
    by_cases delay : config.enableDelayReceive = true
    · rw [if_pos delay]
    · rw [if_neg delay]
  · rw [if_neg connect]
    by_cases close : s.closeNotify = true
    · rw [if_pos (.inr (.inl close)), if_pos close]
    · rw [if_neg close]
      by_cases force : config.disableNotify = true ∧ s.closeForce = true
      · rw [if_pos (.inr (.inr force)), if_pos force]
      · rw [if_neg force, if_neg (not_or.mpr ⟨connect, not_or.mpr ⟨close, force⟩⟩)]
        cases drain s.conn results <;> rfl

/-! ## A range of a file, and data -/

def oneTrunk (trunk : Trunk) : Connection := ⟨some ⟨trunk.length, [trunk]⟩, false, false, []⟩

/-- A descriptor that is watched for reading and writing. -/
def watched (conn : Connection) : Socket := ⟨conn, 0, false, ⟨true, true⟩, some ⟨true, true⟩⟩

def neverWritable (_ : Nat) : Reply := .result ⟨none, .again⟩

theorem neverWritable_fails : FailsAtLast neverWritable := ⟨0, fun _ _ => rfl⟩

theorem atCall_file : AtCall (oneTrunk (.sendfile [1] 0 1)) (.sendfile [1] 0 1) [] :=
  ⟨rfl, rfl, rfl⟩

theorem atCall_data : AtCall (oneTrunk (.data [1] 0)) (.data [1] 0) [] := ⟨rfl, rfl, rfl⟩

/-- The handler calls `sendfile` again where the socket is not writable. -/
theorem not_returns_file : FailsAtLast neverWritable ∧
    ¬ Returns (reactorOnWrite (watched (oneTrunk (.sendfile [1] 0 1)))) neverWritable := by
  refine ⟨neverWritable_fails, fun returns => ?_⟩
  have calls : loop (oneTrunk (.sendfile [1] 0 1)) (first neverWritable 0) =
      .calls (oneTrunk (.sendfile [1] 0 1)) :=
    congrArg (fun drained => Progress.ofDrained (some drained)) atCall_file.drain_nil
  have again := returns.notWritable 0 _ _ calls rfl ⟨rfl, rfl⟩
  have same := loop_succ (oneTrunk (.sendfile [1] 0 1)) neverWritable 0
  rw [calls, neverWritable, Progress.step, atCall_file.file_waits ⟨rfl, rfl⟩,
    if_neg (by decide)] at same
  cases same.symm.trans again

theorem onWrite_returns_iff_data :
    Returns (reactorOnWrite (watched (oneTrunk (.data [1] 0)))) neverWritable := by
  have calls : loop (oneTrunk (.data [1] 0)) (first neverWritable 0) =
      .calls (oneTrunk (.data [1] 0)) :=
    congrArg (fun drained => Progress.ofDrained (some drained)) atCall_data.drain_nil
  have returned : loop (oneTrunk (.data [1] 0)) (first neverWritable 1) = .returned := by
    rw [loop_succ, calls, neverWritable, Progress.step]
    exact atCall_data.data_waits ⟨rfl, rfl⟩
  have onlyFirst {n : Nat} {conn : Connection}
      (here : loop (oneTrunk (.data [1] 0)) (first neverWritable n) = .calls conn) :
      n = 0 ∧ conn = oneTrunk (.data [1] 0) := by
    rcases Nat.eq_zero_or_pos n with rfl | late
    · exact ⟨rfl, (Progress.calls.inj (calls.symm.trans here)).symm⟩
    · rw [loop_settled late (by simp [returned]), returned] at here
      cases here
  refine ((onWrite_returns_iff ⟨false, false, 0, 0, false, false⟩ _
    (.fresh false false false 0) neverWritable_fails).1).mpr ⟨?_, ?_, nofun⟩
  · intro n conn contents offset length rest sent here trunks
    obtain ⟨-, rfl⟩ := onlyFirst here
    cases trunks
  · rintro ⟨m, stays⟩
    obtain ⟨conn, _, _, _, _, here, -⟩ := stays (m + 1) (Nat.le_succ m)
    exact absurd (onlyFirst here).1 (Nat.succ_ne_zero m)

end PhpExts.Swoole.WriteReturns
