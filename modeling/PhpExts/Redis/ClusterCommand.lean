import PhpExts.Redis.ClusterSlots

/-!
# Commands and their replies on a cluster

`cluster_send_command` writes a command, reads the reply and follows redirections. The connection
that is written to depends on the slot, on the setting for failover and on what can be reached; the
one that is read from is `cmd_sock`.

As long as nothing is answered by an `ASK`, the two are the same, and a command is sent where it
would be sent without the redirections before it (`pairsEach_of_noAsk`).
-/

namespace PhpExts.Redis.Command

open Slots

inductive Sock where
  | node (id : Nat)
  | slave (master index : Nat)
  deriving DecidableEq

inductive Answer where
  | reply
  | error (line : List UInt8)
  | lost
  deriving DecidableEq

/-- What is done on the connections, as far as it succeeds, in one command. -/
inductive Event where
  | command (sock : Sock)
  | asking (sock : Sock)
  | readonly (sock : Sock)
  | multi (sock : Sock)
  | read (sock : Sock) (answer : Answer)
  deriving DecidableEq

inductive Failover where
  | none
  | error
  | distribute
  | distributeSlaves
  deriving DecidableEq

structure Env where
  write : Nat → Bool
  direct : Nat → Bool
  answer : Nat → Answer
  shuffle : Nat → List Nat
  timedOut : Nat → Bool

/-- The failover setting, how many slaves each node has, and the bytes behind `redir_host`. -/
structure Config where
  failover : Failover
  slaves : Nat → Nat
  behind : Nat → UInt8

structure Client where
  c : RedisCluster
  cmdSlot : Nat
  cmdSock : Sock
  readonly : Bool
  clusterdown : Bool
  multi : Bool
  inMulti : Sock → Bool
  readonlySock : Sock → Bool
  time : Nat
  log : List Event

variable (cfg : Config) (env : Env)

/-- `CLUSTER_SEND_PAYLOAD`, of the command. -/
def sendPayload (sock : Sock) (s : Client) : Bool × Client :=
  if env.write s.time then
    (true, { s with time := s.time + 1, log := s.log ++ [.command sock] })
  else (false, { s with time := s.time + 1 })

def sendDirect (event : Event) (s : Client) : Bool × Client :=
  if env.direct s.time then (true, { s with time := s.time + 1, log := s.log ++ [event] })
  else (false, { s with time := s.time + 1 })

def clusterSlotSock (master index : Nat) : Option Sock :=
  if index = 0 then some (.node master)
  else if index ≤ cfg.slaves master then some (.slave master index) else none

def clusterSendReadonly (sock : Sock) (s : Client) : Bool × Client :=
  if s.readonlySock sock then (true, s)
  else
    let (sent, s) := sendDirect env (.readonly sock) s
    (sent, { s with readonlySock := Function.update s.readonlySock sock sent })

/-- A slave has to be in `READONLY` mode. -/
def readySock (index : Nat) (sock : Sock) (s : Client) : Bool × Client :=
  if index = 0 then (true, s) else clusterSendReadonly env sock s

/-- The loop of `cluster_dist_write`, in the order of the shuffled array. -/
def distWrite (nomaster : Bool) (master : Nat) : List Nat → Client → Bool × Client
  | [], s => (false, s)
  | index :: rest, s =>
    if nomaster ∧ index = 0 then distWrite nomaster master rest s
    else
      match clusterSlotSock cfg master index with
      | none => distWrite nomaster master rest s
      | some sock =>
        let (ready, s) := readySock env index sock s
        if ready then
          let (written, s) := sendPayload env sock s
          if written then (true, { s with cmdSock := sock })
          else distWrite nomaster master rest s
        else distWrite nomaster master rest s

def clusterDistWrite (nomaster : Bool) (s : Client) : Bool × Client :=
  match s.c.master s.cmdSlot with
  | none => (false, s)
  | some master => distWrite cfg env nomaster master (env.shuffle s.time) s

def knownNodes (c : RedisCluster) : List Nat :=
  (List.range c.created).filter fun id => c.nodes (c.node id).key = some id

/-- The last loop of `cluster_sock_write`. -/
def fallback (requested : Sock) : List Nat → Client → Bool × Client
  | [], s => (false, s)
  | id :: rest, s =>
    if .node id = requested ∨ (s.c.node id).slave then fallback requested rest s
    else
      let (written, s) := sendPayload env (.node id) s
      if written then (true, { s with cmdSlot := (s.c.node id).slot, cmdSock := .node id })
      else fallback requested rest s

/-- The first attempt of `cluster_sock_write`, behind the `ASKING`. -/
def firstWrite (requested : Sock) (s : Client) : Bool × Client :=
  match if s.readonly then cfg.failover else .none with
  | .none => sendPayload env requested s
  | .error =>
    let (written, s) := sendPayload env requested s
    if written then (true, s) else clusterDistWrite cfg env true s
  | .distribute => clusterDistWrite cfg env false s
  | .distributeSlaves => clusterDistWrite cfg env true s

def writeTo (requested : Sock) (s : Client) : Bool × Client :=
  let (written, s) := firstWrite cfg env requested s
  if written then (true, s) else fallback env requested (knownNodes s.c) s

/-- `cluster_sock_write`, not `direct`. -/
def clusterSockWrite (s : Client) : Bool × Client :=
  if s.c.redirType = .ask then
    let (id, c) := clusterGetAskingNode cfg.behind s.c
    let (asked, s) := sendDirect env (.asking (.node id)) { s with c := c }
    if asked then writeTo cfg env (.node id) s else (false, s)
  else writeTo cfg env s.cmdSock s

def isMoved (line : List UInt8) : Bool :=
  line.getD 0 0 = 77 ∧ line.getD 1 0 = 79 ∧ line.getD 2 0 = 86 ∧ line.getD 3 0 = 69 ∧
    line.getD 4 0 = 68 ∧ line.getD 5 0 = 32

def isAsk (line : List UInt8) : Bool :=
  line.getD 0 0 = 65 ∧ line.getD 1 0 = 83 ∧ line.getD 3 0 = 75 ∧ line.getD 4 0 = 32

/-- `CLUSTERDOWN`. -/
def clusterDownText : List UInt8 := [67, 76, 85, 83, 84, 69, 82, 68, 79, 87, 78]

/-- `cluster_check_response`, with the bytes of a C string for the line. -/
def clusterCheckResponse (s : Client) : Int × Client :=
  let answer := env.answer s.time
  let s := { s with
    time := s.time + 1
    clusterdown := false
    log := s.log ++ [.read s.cmdSock answer] }
  match answer with
  | .lost => (-1, s)
  | .reply => (0, s)
  | .error line =>
    let inbuf := (line.take 4095).takeWhile (· != 0)
    if isMoved inbuf ∨ isAsk inbuf then
      match clusterSetRedirection s.c inbuf (isMoved inbuf) with
      | none => (-1, s)
      | some c => (1, { s with c := c })
    else
      (0, { s with clusterdown := clusterDownText.isPrefixOf (inbuf.take (inbuf.length - 2)) })

/-- `MULTI` goes before the first command of a transaction to a node. -/
def enterMulti (slot : Nat) (s : Client) : Bool × Client :=
  if s.multi ∧ ¬ s.inMulti s.cmdSock then
    let (sent, s) := sendDirect env
      (.multi (match s.c.master slot with | some id => .node id | none => s.cmdSock)) s
    (sent, { s with inMulti := Function.update s.inMulti s.cmdSock sent })
  else (true, s)

/-- What becomes of a response, with what is behind the loop: `none` if the loop goes on. -/
def handleResponse (slot : Nat) (resp : Int) (s : Client) : Option Int × Client :=
  if resp ≤ 0 then
    if s.clusterdown ∨ resp = -1 then (some (-1), s)
    else (some 0, { s with c := { s.c with redirType := .none } })
  else if s.multi then (some (-1), s)
  else
    let s := if s.c.redirType = .moved then
        let c := clusterUpdateSlot cfg.behind s.c
        { s with
          c := c
          cmdSock := match c.master slot with | some id => .node id | none => s.cmdSock }
      else s
    if env.timedOut s.time then (some (-1), s) else (none, s)

/-- One round of the loop in `cluster_send_command`. -/
def attempt (slot : Nat) (s : Client) : Option Int × Client :=
  let (entered, s) := enterMulti env slot s
  if entered then
    let (written, s) := clusterSockWrite cfg env s
    if written then
      let (resp, s) := clusterCheckResponse env s
      handleResponse cfg env slot resp s
    else (some (-1), s)
  else (some (-1), s)

def sendLoop (slot : Nat) : Nat → Client → Option Int × Client
  | 0, s => (none, s)
  | fuel + 1, s =>
    match attempt cfg env slot s with
    | (some ret, s) => (some ret, s)
    | (none, s) => sendLoop slot fuel s

/-- A call of `cluster_send_command`, and the mode of the client at it. -/
structure Call where
  slot : Nat
  readcmd : Bool
  multi : Bool

/-- `cluster_send_command`, with the log of its own events. -/
def clusterSendCommand (fuel : Nat) (call : Call) (s : Client) : Option Int × Client :=
  let s := { s with
    readonly := !call.multi && call.readcmd
    multi := call.multi
    inMulti := if call.multi then s.inMulti else fun _ => false
    log := [] }
  match s.c.master call.slot with
  | none => (some (-1), s)
  | some id =>
    sendLoop cfg env call.slot fuel { s with cmdSlot := call.slot, cmdSock := .node id }

/-! ## Reads and writes -/

def lastWritten : Option Sock → List Event → Option Sock
  | last, [] => last
  | _, .command sock :: rest => lastWritten (some sock) rest
  | last, _ :: rest => lastWritten last rest

def ReadsLast : Option Sock → List Event → Prop
  | _, [] => True
  | _, .command sock :: rest => ReadsLast (some sock) rest
  | last, .read sock _ :: rest => last = some sock ∧ ReadsLast last rest
  | last, _ :: rest => ReadsLast last rest

theorem lastWritten_append (last : Option Sock) (log events : List Event) :
    lastWritten last (log ++ events) = lastWritten (lastWritten last log) events := by
  induction log generalizing last with
  | nil => rfl
  | cons event log ih => cases event <;> exact ih _

theorem readsLast_append (last : Option Sock) (log events : List Event) :
    ReadsLast last (log ++ events) ↔
      ReadsLast last log ∧ ReadsLast (lastWritten last log) events := by
  induction log generalizing last with
  | nil => simp [ReadsLast, lastWritten]
  | cons event log ih =>
    cases event <;> simp only [List.cons_append, ReadsLast, lastWritten, ih, and_assoc]

section

variable {cfg : Config} {env : Env} {s : Client}

structure Sound (env : Env) (s : Client) : Prop where
  reads : ReadsLast none s.log
  answers : ∀ sock answer, .read sock answer ∈ s.log → ∃ time, env.answer time = answer
  redirType : s.c.redirType ≠ .ask

/-- A write keeps the log sound and the cluster as it is, and `cmd_sock` is what it wrote to. -/
structure Writes (env : Env) (s : Client) (result : Bool × Client) : Prop where
  sound : Sound env s → Sound env result.2
  last : result.1 = true → lastWritten none result.2.log = some result.2.cmdSock
  c : result.2.c = s.c
  multi : result.2.multi = s.multi

theorem Sound.event (sound : Sound env s) {event : Event} (s' : Client)
    (log : s'.log = s.log ++ [event]) (c : s'.c = s.c)
    (other : ∀ sock answer, event ≠ .read sock answer) : Sound env s' where
  reads := by
    rw [log, readsLast_append]
    refine ⟨sound.reads, ?_⟩
    cases event with
    | read sock answer => exact absurd rfl (other sock answer)
    | command | asking | readonly | multi => trivial
  answers := fun sock answer mem => by
    rw [log, List.mem_append, List.mem_singleton] at mem
    exact sound.answers sock answer (mem.resolve_right fun same => other sock answer same.symm)
  redirType := c ▸ sound.redirType

theorem sendPayload_cases (env : Env) (sock : Sock) (s : Client) : sendPayload env sock s =
        (true, { s with time := s.time + 1, log := s.log ++ [.command sock] }) ∨
      sendPayload env sock s = (false, { s with time := s.time + 1 }) := by
  rw [sendPayload]
  split
  · exact .inl rfl
  · exact .inr rfl

theorem sendDirect_cases (env : Env) (event : Event) (s : Client) :
    sendDirect env event s = (true, { s with time := s.time + 1, log := s.log ++ [event] }) ∨
      sendDirect env event s = (false, { s with time := s.time + 1 }) := by
  rw [sendDirect]
  split
  · exact .inl rfl
  · exact .inr rfl

theorem Sound.command (sound : Sound env s) (sock : Sock) (s' : Client)
    (log : s'.log = s.log ++ [.command sock]) (c : s'.c = s.c) : Sound env s' :=
  sound.event s' log c (by simp)

theorem lastWritten_command (log : List Event) (sock : Sock) :
    lastWritten none (log ++ [.command sock]) = some sock := by
  rw [lastWritten_append]
  rfl

theorem Sound.tick (sound : Sound env s) (s' : Client) (log : s'.log = s.log) (c : s'.c = s.c) :
    Sound env s' :=
  ⟨log ▸ sound.reads, log ▸ sound.answers, c ▸ sound.redirType⟩

theorem Writes.trans {s' : Client} {result : Bool × Client} (first : Sound env s → Sound env s')
    (c : s'.c = s.c) (multi : s'.multi = s.multi) (writes : Writes env s' result) :
    Writes env s result :=
  ⟨fun sound => writes.sound (first sound), writes.last, writes.c.trans c,
    writes.multi.trans multi⟩

theorem clusterSendReadonly_sound (env : Env) (sock : Sock) (s : Client) :
    (Sound env s → Sound env (clusterSendReadonly env sock s).2) ∧
      (clusterSendReadonly env sock s).2.c = s.c ∧
      (clusterSendReadonly env sock s).2.multi = s.multi := by
  rw [clusterSendReadonly]
  split
  · exact ⟨id, rfl, rfl⟩
  · rcases sendDirect_cases env (.readonly sock) s with sent | sent
    · rw [sent]
      exact ⟨fun sound => sound.event _ rfl rfl (by simp), rfl, rfl⟩
    · rw [sent]
      exact ⟨fun sound => sound.tick _ rfl rfl, rfl, rfl⟩

theorem readySock_sound (env : Env) (index : Nat) (sock : Sock) (s : Client) :
    (Sound env s → Sound env (readySock env index sock s).2) ∧
      (readySock env index sock s).2.c = s.c ∧ (readySock env index sock s).2.multi = s.multi := by
  rw [readySock]
  split
  · exact ⟨id, rfl, rfl⟩
  · exact clusterSendReadonly_sound env sock s

theorem distWrite_writes (nomaster : Bool) (master : Nat) (order : List Nat) (s : Client) :
    Writes env s (distWrite cfg env nomaster master order s) := by
  induction order generalizing s with
  | nil => exact ⟨id, by simp [distWrite], rfl, rfl⟩
  | cons index rest ih =>
    rw [distWrite]
    split
    · exact ih s
    · cases clusterSlotSock cfg master index with
      | none => exact ih s
      | some sock =>
        have ready := readySock_sound env index sock s
        simp only
        generalize readySock env index sock s = opened at ready ⊢
        obtain ⟨sent, after⟩ := opened
        obtain ⟨sound, c, multi⟩ := ready
        cases sent with
        | false => exact (ih after).trans sound c multi
        | true =>
          simp only [if_true]
          rcases sendPayload_cases env sock after with written | written
          · rw [written]
            exact ⟨fun start => (sound start).command sock _ rfl rfl,
              fun _ => lastWritten_command _ _, c, multi⟩
          · rw [written]
            simp only [Bool.false_eq_true, if_false]
            have next := ih { after with time := after.time + 1 }
            exact ⟨fun start => next.sound ((sound start).tick _ rfl rfl), next.last,
              next.c.trans c, next.multi.trans multi⟩

theorem clusterDistWrite_writes (nomaster : Bool) (s : Client) :
    Writes env s (clusterDistWrite cfg env nomaster s) := by
  rw [clusterDistWrite]
  cases s.c.master s.cmdSlot with
  | none => exact ⟨id, by simp, rfl, rfl⟩
  | some master => exact distWrite_writes nomaster master _ s

theorem fallback_writes (requested : Sock) (known : List Nat) (s : Client) :
    Writes env s (fallback env requested known s) := by
  induction known generalizing s with
  | nil => exact ⟨id, by simp [fallback], rfl, rfl⟩
  | cons id rest ih =>
    rw [fallback]
    split
    · exact ih s
    · rcases sendPayload_cases env (.node id) s with written | written
      · rw [written]
        exact ⟨fun sound => sound.command _ _ rfl rfl, fun _ => lastWritten_command _ _, rfl, rfl⟩
      · rw [written]
        simp only [Bool.false_eq_true, if_false]
        have next := ih { s with time := s.time + 1 }
        exact ⟨fun sound => next.sound (sound.tick _ rfl rfl), next.last, next.c, next.multi⟩

theorem firstWrite_writes (s : Client) : Writes env s (firstWrite cfg env s.cmdSock s) := by
  have payload : Writes env s (sendPayload env s.cmdSock s) := by
    rcases sendPayload_cases env s.cmdSock s with written | written
    · rw [written]
      exact ⟨fun sound => sound.command _ _ rfl rfl, fun _ => lastWritten_command _ _, rfl, rfl⟩
    · rw [written]
      exact ⟨fun sound => sound.tick _ rfl rfl, by simp, rfl, rfl⟩
  rw [firstWrite]
  cases if s.readonly = true then cfg.failover else Failover.none with
  | none => exact payload
  | distribute => exact clusterDistWrite_writes _ s
  | distributeSlaves => exact clusterDistWrite_writes _ s
  | error =>
    simp only
    generalize sendPayload env s.cmdSock s = sent at payload ⊢
    obtain ⟨written, after⟩ := sent
    cases written with
    | true => exact payload
    | false => exact (clusterDistWrite_writes _ after).trans payload.sound payload.c payload.multi

theorem writeTo_writes (s : Client) : Writes env s (writeTo cfg env s.cmdSock s) := by
  have writes := @firstWrite_writes cfg env s
  rw [writeTo]
  generalize firstWrite cfg env s.cmdSock s = sent at writes ⊢
  obtain ⟨written, after⟩ := sent
  cases written with
  | true => exact writes
  | false => exact (fallback_writes _ _ after).trans writes.sound writes.c writes.multi

/-- The line as `cluster_check_response` has it. -/
def inbuf (line : List UInt8) : List UInt8 := (line.take 4095).takeWhile (· != 0)

/-- An answer that is no `ASK`, neither for a server nor for `IS_ASK`. -/
def NoAsk (answer : Answer) : Prop :=
  ∀ line, answer = .error line → isAsk (inbuf line) = false ∧
    ∀ redirection : Redirection, redirection.moved = false → line ≠ redirection.line

theorem clusterSetRedirection_moved {c c' : RedisCluster} {msg : List UInt8}
    (result : clusterSetRedirection c msg true = some c') : c'.redirType = .moved := by
  rw [clusterSetRedirection] at result
  split at result
  · cases result
  · split at result
    · cases result
    · rw [← Option.some.inj result, if_pos rfl]

theorem clusterUpdateSlot_redirType (behind : Nat → UInt8) (c : RedisCluster) :
    (clusterUpdateSlot behind c).redirType = c.redirType := by
  rw [clusterUpdateSlot]
  cases c.master c.redirSlot with
  | none => cases clusterFindNode c <;> rfl
  | some mapped =>
    simp only
    split
    · rfl
    · cases clusterFindNode c <;> rfl

theorem clusterCheckResponse_sound (noAsk : ∀ time, NoAsk (env.answer time))
    (sound : Sound env s) (last : lastWritten none s.log = some s.cmdSock) :
    Sound env (clusterCheckResponse env s).2 ∧ (clusterCheckResponse env s).2.multi = s.multi ∧
      ((clusterCheckResponse env s).1 ≤ 0 ∨
        (clusterCheckResponse env s).2.c.redirType = .moved) := by
  have reads : ReadsLast none (s.log ++ [.read s.cmdSock (env.answer s.time)]) :=
    (readsLast_append _ _ _).mpr ⟨sound.reads, last, trivial⟩
  have answers : ∀ sock answer,
      .read sock answer ∈ s.log ++ [.read s.cmdSock (env.answer s.time)] →
        ∃ time, env.answer time = answer := by
    intro sock answer mem
    rcases List.mem_append.mp mem with earlier | isLast
    · exact sound.answers sock answer earlier
    · cases List.mem_singleton.mp isLast
      exact ⟨s.time, rfl⟩
  have asks := noAsk s.time
  rw [clusterCheckResponse]
  cases found : env.answer s.time with
  | lost =>
    rw [found] at reads answers
    exact ⟨⟨reads, answers, sound.redirType⟩, rfl, .inl (show (-1 : Int) ≤ 0 by decide)⟩
  | reply =>
    rw [found] at reads answers
    exact ⟨⟨reads, answers, sound.redirType⟩, rfl, .inl le_rfl⟩
  | error line =>
    rw [found] at reads answers
    have isNot := (asks line found).1
    rw [inbuf] at isNot
    simp only [isNot, Bool.false_eq_true, or_false]
    split
    · rename_i moved
      rw [moved]
      cases result : clusterSetRedirection s.c ((line.take 4095).takeWhile (· != 0)) true with
      | none => exact ⟨⟨reads, answers, sound.redirType⟩, rfl, .inl (by simp)⟩
      | some c =>
        have isMoved := clusterSetRedirection_moved result
        exact ⟨⟨reads, answers, by rw [isMoved]; simp⟩, rfl, .inr isMoved⟩
    · exact ⟨⟨reads, answers, sound.redirType⟩, rfl, .inl le_rfl⟩

theorem enterMulti_sound (slot : Nat) (sound : Sound env s) :
    Sound env (enterMulti env slot s).2 := by
  rw [enterMulti]
  split
  · rcases sendDirect_cases env
      (.multi (match s.c.master slot with | some id => .node id | none => s.cmdSock)) s with
      sent | sent
    · rw [sent]
      exact sound.event _ rfl rfl (by simp)
    · rw [sent]
      exact sound.tick _ rfl rfl
  · exact sound

theorem handleResponse_sound (slot : Nat) {resp : Int} (sound : Sound env s)
    (moved : resp ≤ 0 ∨ s.c.redirType = .moved) :
    Sound env (handleResponse cfg env slot resp s).2 := by
  rw [handleResponse]
  by_cases final : resp ≤ 0
  · rw [if_pos final]
    split
    · exact sound
    · exact ⟨sound.reads, sound.answers, by simp⟩
  · rw [if_neg final]
    have isMoved := moved.resolve_left final
    split
    · exact sound
    · have updated : (clusterUpdateSlot cfg.behind s.c).redirType ≠ .ask := by
        rw [clusterUpdateSlot_redirType, isMoved]
        simp
      simp only
      split
      · exact ⟨sound.reads, sound.answers, updated⟩
      · exact ⟨sound.reads, sound.answers, updated⟩

theorem attempt_sound (noAsk : ∀ time, NoAsk (env.answer time)) (slot : Nat)
    (sound : Sound env s) : Sound env (attempt cfg env slot s).2 := by
  have entered := enterMulti_sound slot sound
  rw [attempt]
  generalize enterMulti env slot s = start at entered ⊢
  obtain ⟨isEntered, s⟩ := start
  cases isEntered with
  | false => exact entered
  | true =>
    have writes := @writeTo_writes cfg env s
    have written : clusterSockWrite cfg env s = writeTo cfg env s.cmdSock s :=
      if_neg entered.redirType
    simp only [if_true, written]
    generalize writeTo cfg env s.cmdSock s = result at writes ⊢
    obtain ⟨written, after⟩ := result
    have sound := writes.sound entered
    cases written with
    | false => exact sound
    | true =>
      obtain ⟨read, -, moved⟩ := clusterCheckResponse_sound noAsk sound (writes.last rfl)
      exact handleResponse_sound slot read moved

theorem sendLoop_sound (noAsk : ∀ time, NoAsk (env.answer time)) (slot fuel : Nat)
    (sound : Sound env s) : Sound env (sendLoop cfg env slot fuel s).2 := by
  induction fuel generalizing s with
  | zero => exact sound
  | succ fuel ih =>
    have round := @attempt_sound cfg env _ noAsk slot sound
    rw [sendLoop]
    generalize attempt cfg env slot s = result at round ⊢
    obtain ⟨ret, after⟩ := result
    cases ret with
    | some ret => exact round
    | none => exact ih round

end

/-! ## Redirections left behind -/

section

variable {cfg : Config} {env : Env} {s : Client} {r : RedisCluster}

def redirectedAs (c r : RedisCluster) : RedisCluster :=
  { c with
    redirType := r.redirType
    redirHost := r.redirHost
    redirHostLen := r.redirHostLen
    redirSlot := r.redirSlot
    redirPort := r.redirPort }

def Client.redirectedAs (s : Client) (r : RedisCluster) : Client :=
  { s with c := Command.redirectedAs s.c r }

def Ignores (f : Client → Bool × Client) : Prop :=
  ∀ (s : Client) (r : RedisCluster),
    f (s.redirectedAs r) = ((f s).1, (f s).2.redirectedAs r)

theorem sendPayload_ignores (sock : Sock) : Ignores (sendPayload env sock) := by
  intro s r
  cases written : env.write s.time <;> simp [sendPayload, Client.redirectedAs, written]

theorem sendDirect_ignores (event : Event) : Ignores (sendDirect env event) := by
  intro s r
  cases sent : env.direct s.time <;> simp [sendDirect, Client.redirectedAs, sent]

theorem readySock_ignores (index : Nat) (sock : Sock) : Ignores (readySock env index sock) := by
  intro s r
  rw [readySock, readySock]
  split
  · rfl
  · have same : (s.redirectedAs r).readonlySock sock = s.readonlySock sock := rfl
    rw [clusterSendReadonly, clusterSendReadonly, same]
    split
    · rfl
    · rw [sendDirect_ignores]
      rfl

theorem distWrite_ignores (nomaster : Bool) (master : Nat) (order : List Nat) :
    Ignores (distWrite cfg env nomaster master order) := by
  induction order with
  | nil => exact fun s r => rfl
  | cons index rest ih =>
    intro s r
    rw [distWrite, distWrite]
    split
    · exact ih s r
    · cases clusterSlotSock cfg master index with
      | none => exact ih s r
      | some sock =>
        simp only
        rw [readySock_ignores]
        generalize readySock env index sock s = opened
        obtain ⟨ready, after⟩ := opened
        cases ready with
        | false => exact ih after r
        | true =>
          simp only [if_true]
          rw [sendPayload_ignores]
          generalize sendPayload env sock after = sent
          obtain ⟨written, after⟩ := sent
          cases written with
          | false => exact ih after r
          | true => rfl

theorem clusterDistWrite_ignores (nomaster : Bool) :
    Ignores (clusterDistWrite cfg env nomaster) := by
  intro s r
  have master : (s.redirectedAs r).c.master (s.redirectedAs r).cmdSlot = s.c.master s.cmdSlot := rfl
  rw [clusterDistWrite, clusterDistWrite, master]
  cases s.c.master s.cmdSlot with
  | none => rfl
  | some master => exact distWrite_ignores nomaster master _ s r

theorem fallback_ignores (requested : Sock) (known : List Nat) :
    Ignores (fallback env requested known) := by
  induction known with
  | nil => exact fun s r => rfl
  | cons id rest ih =>
    intro s r
    have node : (s.redirectedAs r).c.node id = s.c.node id := rfl
    rw [fallback, fallback, node]
    split
    · exact ih s r
    · rw [sendPayload_ignores]
      generalize sendPayload env (.node id) s = sent
      obtain ⟨written, after⟩ := sent
      cases written with
      | false => exact ih after r
      | true => rfl

theorem firstWrite_ignores (requested : Sock) : Ignores (firstWrite cfg env requested) := by
  intro s r
  have chosen : (if (s.redirectedAs r).readonly = true then cfg.failover else Failover.none) =
      if s.readonly = true then cfg.failover else Failover.none := rfl
  rw [firstWrite, firstWrite, chosen]
  cases if s.readonly = true then cfg.failover else Failover.none with
  | none => exact sendPayload_ignores requested s r
  | distribute => exact clusterDistWrite_ignores false s r
  | distributeSlaves => exact clusterDistWrite_ignores true s r
  | error =>
    simp only
    rw [sendPayload_ignores]
    generalize sendPayload env requested s = sent
    obtain ⟨written, after⟩ := sent
    cases written with
    | true => rfl
    | false => exact clusterDistWrite_ignores true after r

theorem writeTo_ignores (requested : Sock) : Ignores (writeTo cfg env requested) := by
  intro s r
  rw [writeTo, writeTo, firstWrite_ignores]
  generalize firstWrite cfg env requested s = sent
  obtain ⟨written, after⟩ := sent
  cases written with
  | true => rfl
  | false => exact fallback_ignores requested (knownNodes after.c) after r

theorem enterMulti_ignores (slot : Nat) : Ignores (enterMulti env slot) := by
  intro s r
  have same : ((s.redirectedAs r).multi = true ∧ ¬ (s.redirectedAs r).inMulti
      (s.redirectedAs r).cmdSock = true) ↔ (s.multi = true ∧ ¬ s.inMulti s.cmdSock = true) := .rfl
  rw [enterMulti, enterMulti]
  by_cases enters : s.multi = true ∧ ¬ s.inMulti s.cmdSock = true
  · rw [if_pos enters, if_pos (same.mpr enters)]
    have master : (s.redirectedAs r).c.master slot = s.c.master slot := rfl
    have sock : (s.redirectedAs r).cmdSock = s.cmdSock := rfl
    rw [master, sock, sendDirect_ignores]
    rfl
  · rw [if_neg enters, if_neg (mt same.mp enters)]

theorem clusterSetRedirection_redirectedAs (c r : RedisCluster) (msg : List UInt8) (moved : Bool) :
    clusterSetRedirection (redirectedAs c r) msg moved = clusterSetRedirection c msg moved := by
  rw [clusterSetRedirection, clusterSetRedirection]
  cases strchr (msg.drop (if moved then 6 else 4)) 32 with
  | none => rfl
  | some found =>
    simp only
    cases strrchr found.2 58 <;> rfl

theorem clusterCheckResponse_redirectedAs (s : Client) (r : RedisCluster) :
    (clusterCheckResponse env (s.redirectedAs r)).1 = (clusterCheckResponse env s).1 ∧
      if (clusterCheckResponse env s).1 ≤ 0 then (clusterCheckResponse env (s.redirectedAs r)).2 =
          (clusterCheckResponse env s).2.redirectedAs r
      else (clusterCheckResponse env (s.redirectedAs r)).2 = (clusterCheckResponse env s).2 := by
  have time : (s.redirectedAs r).time = s.time := rfl
  rw [clusterCheckResponse, clusterCheckResponse, time]
  cases env.answer s.time with
  | lost => exact ⟨rfl, rfl⟩
  | reply => exact ⟨rfl, rfl⟩
  | error line =>
    have set := clusterSetRedirection_redirectedAs s.c r
      ((line.take 4095).takeWhile (· != 0)) (isMoved ((line.take 4095).takeWhile (· != 0)))
    simp only
    split
    · simp only [Client.redirectedAs, set]
      cases clusterSetRedirection s.c ((line.take 4095).takeWhile (· != 0))
          (isMoved ((line.take 4095).takeWhile (· != 0))) with
      | none => exact ⟨rfl, rfl⟩
      | some c => exact ⟨rfl, rfl⟩
    · exact ⟨rfl, rfl⟩

theorem handleResponse_redirectedAs (slot : Nat) {resp : Int} (final : resp ≤ 0) (s : Client)
    (r : RedisCluster) : (handleResponse cfg env slot resp (s.redirectedAs r)).1 =
        (handleResponse cfg env slot resp s).1 ∧
      (handleResponse cfg env slot resp (s.redirectedAs r)).2.log =
        (handleResponse cfg env slot resp s).2.log ∧
      (handleResponse cfg env slot resp s).1 ≠ none := by
  have down : (s.redirectedAs r).clusterdown = s.clusterdown := rfl
  rw [handleResponse, handleResponse, if_pos final, if_pos final, down]
  split
  · exact ⟨rfl, rfl, by simp⟩
  · exact ⟨rfl, rfl, by simp⟩

theorem attempt_redirectedAs (slot : Nat) (noAsk : s.c.redirType ≠ .ask)
    (other : r.redirType ≠ .ask) (keeps : (enterMulti env slot s).2.c = s.c) :
    (attempt cfg env slot (s.redirectedAs r)).1 = (attempt cfg env slot s).1 ∧
      (attempt cfg env slot (s.redirectedAs r)).2.log = (attempt cfg env slot s).2.log ∧
      ((attempt cfg env slot s).1 = none →
        (attempt cfg env slot (s.redirectedAs r)).2 = (attempt cfg env slot s).2) := by
  rw [attempt, attempt, enterMulti_ignores]
  generalize enterMulti env slot s = start at keeps ⊢
  obtain ⟨isEntered, after⟩ := start
  cases isEntered with
  | false => exact ⟨rfl, rfl, by simp⟩
  | true =>
    have first : clusterSockWrite cfg env after = writeTo cfg env after.cmdSock after :=
      if_neg (keeps ▸ noAsk)
    have second : clusterSockWrite cfg env (after.redirectedAs r) =
        writeTo cfg env after.cmdSock (after.redirectedAs r) := if_neg other
    simp only [if_true, first, second]
    rw [writeTo_ignores]
    generalize writeTo cfg env after.cmdSock after = sent
    obtain ⟨written, after⟩ := sent
    cases written with
    | false => exact ⟨rfl, rfl, by simp⟩
    | true =>
      obtain ⟨sameResp, sameState⟩ :=
        @clusterCheckResponse_redirectedAs env after r
      simp only [if_true, sameResp]
      split at sameState
      · rename_i final
        rw [sameState]
        obtain ⟨ret, log, ends⟩ := @handleResponse_redirectedAs cfg env slot _
          final (clusterCheckResponse env after).2 r
        exact ⟨ret, log, fun goesOn => absurd goesOn ends⟩
      · rw [sameState]
        exact ⟨rfl, rfl, fun _ => rfl⟩

theorem enterMulti_c (slot : Nat) (s : Client) : (enterMulti env slot s).2.c = s.c := by
  rw [enterMulti]
  split
  · rcases sendDirect_cases env
      (.multi (match s.c.master slot with | some id => .node id | none => s.cmdSock)) s with
      sent | sent
    all_goals
      rw [sent]
  · rfl

theorem sendLoop_redirectedAs (slot fuel : Nat) (noAsk : s.c.redirType ≠ .ask)
    (other : r.redirType ≠ .ask) : (sendLoop cfg env slot fuel (s.redirectedAs r)).2.log =
      (sendLoop cfg env slot fuel s).2.log := by
  cases fuel with
  | zero => rfl
  | succ fuel =>
    obtain ⟨ret, log, same⟩ :=
      @attempt_redirectedAs cfg env _ _ slot noAsk other (@enterMulti_c env slot s)
    rw [sendLoop, sendLoop]
    generalize attempt cfg env slot s = result at ret log same ⊢
    generalize attempt cfg env slot (s.redirectedAs r) = result' at ret log same ⊢
    obtain ⟨ended, after⟩ := result
    obtain ⟨ended', after'⟩ := result'
    obtain rfl : ended' = ended := ret
    cases ended' with
    | some ret => exact log
    | none =>
      obtain rfl : after' = after := same rfl
      rfl

end

variable {cfg : Config} {env : Env} {s : Client}

/-- A command and its reply: the reply is read from where the command has been written last; a
command answered by an `ASK` goes to the announced node behind an `ASKING`, once, and its reply
is taken from there; and it is sent where it would be sent without a redirection left behind. -/
structure Pairs (cfg : Config) (env : Env) (fuel : Nat) (call : Call) (s : Client) : Prop where
  reads : ReadsLast none (clusterSendCommand cfg env fuel call s).2.log
  asks : ∀ before sock (redirection : Redirection) after, redirection.moved = false →
    (clusterSendCommand cfg env fuel call s).1 = some 0 →
    (clusterSendCommand cfg env fuel call s).2.log =
      before ++ .read sock (.error redirection.line) :: after →
    ∃ id answer later,
      ((clusterSendCommand cfg env fuel call s).2.c.node id).host = redirection.host ∧
      ((clusterSendCommand cfg env fuel call s).2.c.node id).port = redirection.port ∧
      after = .asking (.node id) :: .command (.node id) :: .read (.node id) answer :: later
  independent : (clusterSendCommand cfg env fuel call (s.redirectedAs .empty)).2.log =
    (clusterSendCommand cfg env fuel call s).2.log

def PairsEach (cfg : Config) (env : Env) (fuel : Nat) : List Call → Client → Prop
  | [], _ => True
  | call :: rest, s => Pairs cfg env fuel call s ∧
      ((clusterSendCommand cfg env fuel call s).1 ≠ none →
        PairsEach cfg env fuel rest (clusterSendCommand cfg env fuel call s).2)

theorem clusterSendCommand_sound (noAsk : ∀ time, NoAsk (env.answer time)) (fuel : Nat)
    (call : Call) (start : s.c.redirType ≠ .ask) :
    Sound env (clusterSendCommand cfg env fuel call s).2 := by
  rw [clusterSendCommand]
  simp only
  cases s.c.master call.slot with
  | none => exact ⟨trivial, by simp, start⟩
  | some id => exact sendLoop_sound noAsk call.slot fuel ⟨trivial, by simp, start⟩

theorem pairs_of_noAsk (noAsk : ∀ time, NoAsk (env.answer time)) (fuel : Nat) (call : Call)
    (start : s.c.redirType ≠ .ask) : Pairs cfg env fuel call s := by
  have sound := @clusterSendCommand_sound cfg env _ noAsk fuel call start
  refine ⟨sound.reads, fun before sock redirection after isAsk _ log => ?_, ?_⟩
  · have mem : Event.read sock (.error redirection.line) ∈
        (clusterSendCommand cfg env fuel call s).2.log := by
      rw [log]
      simp
    obtain ⟨time, answer⟩ := sound.answers _ _ mem
    exact absurd rfl ((noAsk time _ answer).2 redirection isAsk)
  · rw [clusterSendCommand, clusterSendCommand]
    have master : (s.redirectedAs RedisCluster.empty).c.master call.slot =
        s.c.master call.slot := rfl
    simp only [master]
    cases s.c.master call.slot with
    | none => rfl
    | some id =>
      exact sendLoop_redirectedAs (s := { s with
        readonly := !call.multi && call.readcmd
        multi := call.multi
        inMulti := if call.multi then s.inMulti else fun _ => false
        log := []
        cmdSlot := call.slot
        cmdSock := .node id }) call.slot fuel start (by simp [RedisCluster.empty])

/-- **In a run in which nothing is answered by an `ASK`, replies and commands are paired.** -/
theorem pairsEach_of_noAsk (cfg : Config) (env : Env) (fuel : Nat) (calls : List Call)
    (s : Client) (start : s.c.redirType = .none) (noAsk : ∀ time, NoAsk (env.answer time)) :
    PairsEach cfg env fuel calls s := by
  replace start : s.c.redirType ≠ .ask := by simp [start]
  induction calls generalizing s with
  | nil => trivial
  | cons call rest ih =>
    exact ⟨pairs_of_noAsk noAsk fuel call start, fun _ =>
      ih _ (clusterSendCommand_sound noAsk fuel call start).redirType⟩

def oneNodeClient : Client where
  c := (clusterMapKeyspace oneNode .empty).2
  cmdSlot := 0
  cmdSock := .node 0
  readonly := false
  clusterdown := false
  multi := false
  inMulti := fun _ => false
  readonlySock := fun _ => false
  time := 0
  log := []

def plainConfig : Config where
  failover := .none
  slaves := fun _ => 0
  behind := fun _ => 0

def firstAnswer (answer : Answer) : Env where
  write := fun _ => true
  direct := fun _ => true
  answer := fun time => if time = 1 then answer else .reply
  shuffle := fun _ => []
  timedOut := fun _ => false

theorem pairsEach_moved : PairsEach plainConfig
    (firstAnswer (.error (Redirection.mk true 5 [98] 7001 (by decide) (by decide)).line)) 9
    [⟨5, true, false⟩, ⟨6, false, false⟩] oneNodeClient := by
  refine pairsEach_of_noAsk _ _ 9 _ oneNodeClient rfl fun time line isLine => ?_
  simp only [firstAnswer] at isLine
  split at isLine
  · obtain rfl := Answer.error.inj isLine
    refine ⟨by decide, fun redirection isAsk same => ?_⟩
    have head := congrArg List.head? same
    simp [Redirection.line, isAsk] at head
  · cases isLine

/-- An `ASK` is taken for a plain error, and the command is not sent again. -/
theorem pairsEach_ask : ¬ ∀ (cfg : Config) (env : Env) (fuel : Nat) (calls : List Call)
    (s : Client), s.c.redirType = .none → PairsEach cfg env fuel calls s := by
  intro all
  have pairs := (all plainConfig
    (firstAnswer (.error (Redirection.mk false 5 [98] 7001 (by decide) (by decide)).line)) 9
    [⟨5, true, false⟩] oneNodeClient rfl).1
  obtain ⟨id, answer, later, -, -, again⟩ := pairs.asks [.command (.node 0)] (.node 0)
    ⟨false, 5, [98], 7001, by decide, by decide⟩ [] rfl (by decide) (by decide)
  cases again

end PhpExts.Redis.Command
