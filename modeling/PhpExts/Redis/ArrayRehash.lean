import Mathlib

/-!
# Moving a key in a rehash

`ra_move_key` reads a key on its old server, queues the store of it on the new one in a
transaction, deletes it on the old one in a transaction of its own, and only then has the store
run. What has been queued and what has been run is not looked at: where the delete is run and the
store is not, the key is lost.

An error that throws an exception and a connection that is lost end the move, since a function of
the user's is not called any more while an exception is pending.
-/

namespace PhpExts.Redis.Rehash

abbrev Bytes := List UInt8

local instance lawfulBytes : LawfulBEq Bytes := inferInstance

/-- The value of a key, with one case for each type that `ra_move_key` distinguishes. A score is
given by the bits of its double. -/
inductive Value where
  | string (bytes : Bytes)
  | set (members : List Bytes)
  | list (elements : List Bytes)
  | zset (members : List (Bytes × UInt64))
  | hash (fields : List (Bytes × Bytes))
  deriving DecidableEq

structure Entry where
  value : Value
  ttl : Option Nat
  deriving DecidableEq

/-- The commands that change the key, or the set that is the index of a server. -/
inductive Command where
  | set (bytes : Bytes)
  | setex (seconds : Nat) (bytes : Bytes)
  | add (value : Value)
  | expire (seconds : Nat)
  | del
  | srem
  | index
  deriving DecidableEq

/-- A server, as far as the key goes; `queue` is there in a transaction, and `dirty` if it has
refused to queue a command. -/
structure Server where
  entry : Option Entry
  queue : Option (List Command)
  dirty : Bool
  deriving DecidableEq

/-- `SADD`, `RPUSH`, `ZADD` and `HMSET` on a key that exists; there is no result for one of another
type. -/
def Value.merge : Value → Value → Option Value
  | .set old, .set new => some (.set (old ++ new.filter (· ∉ old)))
  | .list old, .list new => some (.list (old ++ new))
  | .zset old, .zset new => some (.zset (old.filter (fun m => m.1 ∉ new.map Prod.fst) ++ new))
  | .hash old, .hash new => some (.hash (old.filter (fun f => f.1 ∉ new.map Prod.fst) ++ new))
  | _, _ => none

/-- The value as `ZADD` writes it: with 16 digits for a score, off which the server reads
`digits score`. -/
def Value.written (digits : UInt64 → UInt64) : Value → Value
  | .zset members => .zset (members.map fun m => (m.1, digits m.2))
  | value => value

def Command.run (entry : Option Entry) : Command → Option Entry
  | .set bytes => some ⟨.string bytes, none⟩
  | .setex seconds bytes => some ⟨.string bytes, some (seconds * 1000)⟩
  | .add value =>
    match entry with
    | none => some ⟨value, none⟩
    | some old =>
      match old.value.merge value with
      | none => some old
      | some merged => some { old with value := merged }
  | .expire seconds => entry.map fun old => { old with ttl := some (seconds * 1000) }
  | .del => none
  | .srem | .index => entry

/-- What comes of a command: a `queued` one that `fails` gives an error only when it is run; an
error is thrown as an exception or not; and a connection is lost before the server has the command
or after. -/
inductive Outcome where
  | ok
  | fails
  | error
  | thrown
  | lostBefore
  | lostAfter
  deriving DecidableEq

def Server.accept (server : Server) (command : Command) : Server :=
  match server.queue with
  | none => { server with entry := command.run server.entry }
  | some queue => { server with queue := some (queue ++ [command]) }

def Server.refuse (server : Server) : Server :=
  { server with dirty := server.queue.isSome }

def Server.discard (server : Server) : Server :=
  { server with queue := none, dirty := false }

def Server.send (server : Server) (command : Command) : Outcome → Server × Bool
  | .ok => (server.accept command, false)
  | .fails => (server, false)
  | .error => (server.refuse, false)
  | .thrown => (server.refuse, true)
  | .lostBefore => (server.discard, true)
  | .lostAfter => ((server.accept command).discard, true)

/-- `EXEC`, which is refused if a command has been. -/
def Server.commit (server : Server) : Server :=
  if server.dirty then server.discard
  else { server with entry := (server.queue.getD []).foldl Command.run server.entry }.discard

def Server.exec (server : Server) : Outcome → Server × Bool
  | .ok | .fails => (server.commit, false)
  | .error => (server.discard, false)
  | .thrown => (server.discard, true)
  | .lostBefore => (server.discard, true)
  | .lostAfter => (server.commit, true)

structure Move where
  source : Server
  target : Server
  sourceMulti : Bool
  targetMulti : Bool
  exception : Bool
  deriving DecidableEq

structure Outcomes where
  typeTtl : Outcome
  targetMulti : Outcome
  read : Outcome
  store : Outcome
  expire : Outcome
  sourceMulti : Outcome
  del : Outcome
  srem : Outcome
  sourceExec : Outcome
  index : Outcome
  targetExec : Outcome

def Outcome.throws : Outcome → Bool
  | .ok | .fails | .error => false
  | .thrown | .lostBefore | .lostAfter => true

/-- `ra_call_user_function`, on the source. -/
def Move.onSource (s : Move) (command : Command) (outcome : Outcome) : Move :=
  if s.exception then s
  else { s with
    source := (s.source.send command outcome).1
    exception := (s.source.send command outcome).2 }

def Move.onTarget (s : Move) (command : Command) (outcome : Outcome) : Move :=
  if s.exception then s
  else { s with
    target := (s.target.send command outcome).1
    exception := (s.target.send command outcome).2 }

def Server.opened (server : Server) : Server := { server with queue := some [], dirty := false }

/-- `ra_index_multi`, on the target. -/
def multiTarget (s : Move) (outcome : Outcome) : Move :=
  if s.exception then s
  else if outcome = .ok then { s with target := s.target.opened, targetMulti := true }
  else { s with exception := outcome.throws }

def multiSource (s : Move) (outcome : Outcome) : Move :=
  if s.exception then s
  else if outcome = .ok then { s with source := s.source.opened, sourceMulti := true }
  else { s with exception := outcome.throws }

/-- `ra_index_exec`, which does nothing outside a transaction. -/
def execTarget (s : Move) (outcome : Outcome) : Move :=
  if s.exception ∨ ¬ s.targetMulti then s
  else { s with
    target := (s.target.exec outcome).1
    exception := (s.target.exec outcome).2
    targetMulti := false }

def execSource (s : Move) (outcome : Outcome) : Move :=
  if s.exception ∨ ¬ s.sourceMulti then s
  else { s with
    source := (s.source.exec outcome).1
    exception := (s.source.exec outcome).2
    sourceMulti := false }

/-- What `TTL` answers: the seconds, rounded, or -1. -/
def ttlReply : Option Nat → Int
  | none => -1
  | some milliseconds => (milliseconds + 500) / 1000

/-- `ra_get_key_type`: the type is given by the entry, and the time is that of `TTL`. -/
def raGetKeyType (outcome : Outcome) (s : Move) : Option (Option Entry × Int) × Move :=
  match outcome with
  | .ok => (some (s.source.entry, (s.source.entry.elim (-2) fun entry => ttlReply entry.ttl)), s)
  | _ => (none, { s with exception := outcome.throws })

def raExpireKey (o : Outcomes) (ttl : Int) (s : Move) : Move :=
  if ttl > 0 then s.onTarget (.expire ttl.toNat) o.expire else s

/-- `ra_move_string`, behind its `GET`. -/
def raMoveString (o : Outcomes) (bytes : Bytes) (ttl : Int) (s : Move) : Move :=
  if ttl > 0 then s.onTarget (.setex ttl.toNat bytes) o.store else s.onTarget (.set bytes) o.store

/-- `ra_move_set`, `ra_move_list`, `ra_move_zset` and `ra_move_hash`, behind their reads. -/
def raMoveCollection (o : Outcomes) (value : Value) (ttl : Int) (s : Move) : Move :=
  raExpireKey o ttl (s.onTarget (.add value) o.store)

section

variable (digits : UInt64 → UInt64)

def raMoveValue (o : Outcomes) (entry : Entry) (ttl : Int) (s : Move) : Bool × Move :=
  if s.exception then (false, s)
  else
    match o.read with
    | .ok =>
      match entry.value with
      | .string bytes => (true, raMoveString o bytes ttl s)
      | value => (true, raMoveCollection o (value.written digits) ttl s)
    | outcome => (false, { s with exception := outcome.throws })

def raDelKey (o : Outcomes) (s : Move) : Move :=
  execSource (((multiSource s o.sourceMulti).onSource .del o.del).onSource .srem o.srem)
    o.sourceExec

/-- `ra_move_key`, up to the delete: it goes on if it succeeds. -/
def raStoreKey (o : Outcomes) (s : Move) : Bool × Move :=
  match raGetKeyType o.typeTtl s with
  | (none, s) => (false, s)
  | (some (none, _), s) => (false, multiTarget s o.targetMulti)
  | (some (some entry, ttl), s) => raMoveValue digits o entry ttl (multiTarget s o.targetMulti)

def raMoveKey (o : Outcomes) (s : Move) : Move :=
  let (success, s) := raStoreKey digits o s
  execTarget (if success then (raDelKey o s).onTarget .index o.index else s) o.targetExec

end

def start (source target : Option Entry) : Move where
  source := ⟨source, none, false⟩
  target := ⟨target, none, false⟩
  sourceMulti := false
  targetMulti := false
  exception := false

def Value.Same : Value → Value → Prop
  | .string bytes, .string bytes' => bytes = bytes'
  | .list elements, .list elements' => elements = elements'
  | .set members, .set members' => ∀ member, member ∈ members ↔ member ∈ members'
  | .zset members, .zset members' => ∀ member, member ∈ members ↔ member ∈ members'
  | .hash fields, .hash fields' => ∀ field, field ∈ fields ↔ field ∈ fields'
  | _, _ => False

def Value.isString : Value → Bool
  | .string _ => true
  | _ => false

/-- An `EXPIRE` is sent. -/
def Entry.expires (entry : Entry) : Bool := !entry.value.isString && decide (ttlReply entry.ttl > 0)

def Outcome.queues : Outcome → Bool
  | .ok | .fails => true
  | .error | .thrown | .lostBefore | .lostAfter => false

/-- An `EXEC` that is run. -/
def Outcome.runs : Outcome → Bool
  | .ok | .fails | .lostAfter => true
  | .error | .thrown | .lostBefore => false

def Outcomes.reaches (o : Outcomes) (entry : Entry) : Bool :=
  decide (o.typeTtl = .ok) && !o.targetMulti.throws && decide (o.read = .ok) && !o.store.throws &&
    (!entry.expires || !o.expire.throws)

def Outcomes.deletes (o : Outcomes) : Bool :=
  if o.sourceMulti = .ok then decide (o.del = .ok) && o.srem.queues && o.sourceExec.runs
  else !o.sourceMulti.throws && (decide (o.del = .ok) || decide (o.del = .lostAfter))

def Outcomes.quiet (o : Outcomes) : Bool :=
  !o.sourceMulti.throws && !o.del.throws && !o.srem.throws &&
    (!decide (o.sourceMulti = .ok) || !o.sourceExec.throws)

def Outcomes.stores (o : Outcomes) (entry : Entry) : Bool :=
  decide (o.store = .ok) && (!decide (o.targetMulti = .ok) ||
    (!entry.expires || o.expire.queues) && o.quiet && o.index.queues && o.targetExec.runs)

structure Outcomes.AllOk (o : Outcomes) : Prop where
  typeTtl : o.typeTtl = .ok
  targetMulti : o.targetMulti = .ok
  read : o.read = .ok
  store : o.store = .ok
  expire : o.expire = .ok
  sourceMulti : o.sourceMulti = .ok
  del : o.del = .ok
  srem : o.srem = .ok
  sourceExec : o.sourceExec = .ok
  index : o.index = .ok
  targetExec : o.targetExec = .ok

/-- What the store makes of the value on the target. -/
def stored (digits : UInt64 → UInt64) (value : Value) : Option Entry → Value
  | none => value.written digits
  | some old =>
    if value.isString then value
    else (old.value.merge (value.written digits)).getD old.value

def Value.Absorbed : Value → Value → Prop
  | .list old, .list _ => old = []
  | .set old, .set new => ∀ member ∈ old, member ∈ new
  | .zset old, .zset new => ∀ member ∈ old, member.1 ∈ new.map Prod.fst
  | .hash old, .hash new => ∀ field ∈ old, field.1 ∈ new.map Prod.fst
  | _, _ => False

/-- A store leaves the value on the target. -/
def Fits (digits : UInt64 → UInt64) (value : Value) (target : Option Entry) : Prop :=
  value.isString = true ∨ (value.written digits).Same value ∧
    ∀ old, target = some old → old.value.Absorbed value

def KeepsValue (command : Command) : Prop :=
  ∀ entry : Option Entry, (command.run entry).map Entry.value = entry.map Entry.value

def Server.pending (server : Server) : Option Value :=
  ((server.queue.getD []).foldl Command.run server.entry).map Entry.value

section

variable {server : Server} {queue : List Command}

theorem pending_accept (isOpen : server.queue = some queue) {command : Command}
    (keeps : KeepsValue command) : (server.accept command).pending = server.pending := by
  simp only [Server.accept, isOpen, Server.pending, Option.getD_some, List.foldl_append,
    List.foldl_cons, List.foldl_nil]
  exact keeps _

theorem send_keeps (isOpen : server.queue = some queue) {command : Command}
    (keeps : KeepsValue command) {outcome : Outcome} (quiet : outcome.throws = false) :
    (∃ queue, (server.send command outcome).1.queue = some queue) ∧
      (server.send command outcome).1.pending = server.pending ∧
      (server.send command outcome).1.entry = server.entry ∧
      (server.send command outcome).1.dirty = (server.dirty || !outcome.queues) ∧
      (server.send command outcome).2 = false := by
  cases outcome with
  | ok =>
    refine ⟨?_, pending_accept isOpen keeps, ?_, ?_, rfl⟩
    all_goals simp [Server.send, Server.accept, isOpen, Outcome.queues]
  | fails => exact ⟨⟨queue, isOpen⟩, rfl, rfl, (Bool.or_false _).symm, rfl⟩
  | error => exact ⟨⟨queue, isOpen⟩, rfl, rfl, by simp [Server.send, Server.refuse, isOpen,
      Outcome.queues], rfl⟩
  | thrown | lostBefore | lostAfter => cases quiet

end

theorem send_throws (server : Server) (command : Command) (outcome : Outcome) :
    (server.send command outcome).2 = outcome.throws := by
  cases outcome <;> rfl

theorem exec_value (server : Server) (outcome : Outcome) :
    (server.exec outcome).1.entry.map Entry.value =
      if outcome.runs && !server.dirty then server.pending else server.entry.map Entry.value := by
  cases outcome <;> cases dirty : server.dirty <;>
    simp [Server.exec, Server.commit, Server.discard, Server.pending, Outcome.runs, dirty]

def Entry.store (digits : UInt64 → UInt64) (entry : Entry) : Command :=
  match entry.value with
  | .string bytes =>
    if ttlReply entry.ttl > 0 then .setex (ttlReply entry.ttl).toNat bytes else .set bytes
  | value => .add (value.written digits)

/-- The target once the store is sent; in a transaction it is `dirty` if a command has been
refused. -/
structure Prepared (digits : UInt64 → UInt64) (o : Outcomes) (entry : Entry)
    (target : Option Entry) (dirty : Bool)
    (s : Move) : Prop where
  multi : s.targetMulti = decide (o.targetMulti = .ok)
  transaction : o.targetMulti = .ok → (∃ queue, s.target.queue = some queue) ∧
    s.target.entry = target ∧ s.target.dirty = dirty ∧
    s.target.pending =
      if o.store = .ok then some (stored digits entry.value target) else target.map Entry.value
  atomic : o.targetMulti ≠ .ok → s.target.queue = none ∧ s.target.entry.map Entry.value =
    if o.store = .ok then some (stored digits entry.value target) else target.map Entry.value

theorem onTarget_quiet {s : Move} (quiet : s.exception = false) (command : Command)
    (outcome : Outcome) : s.onTarget command outcome = { s with
      target := (s.target.send command outcome).1
      exception := outcome.throws } := by
  rw [Move.onTarget, if_neg (by simp [quiet]), send_throws]

theorem send_keeps_atomic {server : Server} (noQueue : server.queue = none) {command : Command}
    (keeps : KeepsValue command) (outcome : Outcome) :
    (server.send command outcome).1.queue = none ∧
      (server.send command outcome).1.entry.map Entry.value = server.entry.map Entry.value := by
  cases outcome <;>
    simp [Server.send, Server.accept, Server.refuse, Server.discard, noQueue, keeps server.entry]

section

variable {digits : UInt64 → UInt64} {o : Outcomes} {entry : Entry} {target : Option Entry}
  {dirty : Bool} {s : Move}

theorem Prepared.send (prepared : Prepared digits o entry target dirty s)
    (quiet : s.exception = false)
    {command : Command} (keeps : KeepsValue command) {outcome : Outcome}
    (noThrow : outcome.throws = false) :
    Prepared digits o entry target (dirty || !outcome.queues) (s.onTarget command outcome) := by
  rw [onTarget_quiet quiet]
  refine ⟨prepared.multi, fun multi => ?_, fun multi => ?_⟩
  · obtain ⟨⟨queue, isOpen⟩, key, isDirty, pending⟩ := prepared.transaction multi
    obtain ⟨isOpen', pending', key', dirty', -⟩ := send_keeps isOpen keeps noThrow
    exact ⟨isOpen', key'.trans key, dirty'.trans (by rw [isDirty]), pending'.trans pending⟩
  · obtain ⟨noQueue, value⟩ := prepared.atomic multi
    obtain ⟨noQueue', value'⟩ := send_keeps_atomic noQueue keeps outcome
    exact ⟨noQueue', value'.trans value⟩

theorem Prepared.commit (prepared : Prepared digits o entry target dirty s) (outcome : Outcome) :
    (execTarget s outcome).target.entry.map Entry.value =
      if o.store = .ok ∧ (o.targetMulti = .ok → s.exception = false ∧ outcome.runs = true ∧
        dirty = false) then some (stored digits entry.value target)
      else target.map Entry.value := by
  by_cases multi : o.targetMulti = .ok
  · obtain ⟨-, key, isDirty, pending⟩ := prepared.transaction multi
    have inMulti : s.targetMulti = true := by rw [prepared.multi, multi]; rfl
    cases quiet : s.exception with
    | true =>
      rw [execTarget, if_pos (.inl quiet), key, if_neg (by simp [multi])]
    | false =>
      rw [execTarget, if_neg (by simp [quiet, inMulti])]
      simp only [exec_value, isDirty, pending, key, multi, true_implies, true_and]
      cases outcome.runs <;> cases dirty <;> by_cases store : o.store = .ok <;> simp [store]
  · have noMulti : s.targetMulti = false := by rw [prepared.multi]; exact decide_eq_false multi
    rw [execTarget, if_pos (.inr (by simp [noMulti])), (prepared.atomic multi).2]
    exact if_congr (by simp [multi]) rfl rfl

end

/-! ## The end of a move -/

variable (digits : UInt64 → UInt64) (o : Outcomes) (entry : Entry) (target : Option Entry)

/-- The key after a move: it is somewhere with its value, and a move without failures leaves it on
the target only, with a time if it had one. -/
structure Safe (digits : UInt64 → UInt64) (o : Outcomes) (entry : Entry)
    (target : Option Entry) : Prop where
  present : (raMoveKey digits o (start (some entry) target)).source.entry = some entry ∨
    ∃ moved, (raMoveKey digits o (start (some entry) target)).target.entry = some moved ∧
      moved.value.Same entry.value
  moved : o.AllOk → (raMoveKey digits o (start (some entry) target)).source.entry = none ∧
    ∃ moved, (raMoveKey digits o (start (some entry) target)).target.entry = some moved ∧
      moved.value.Same entry.value ∧ (entry.ttl.isSome → moved.ttl.isSome)

variable {o}

theorem Outcomes.AllOk.runs (allOk : o.AllOk) :
    o.reaches entry = true ∧ o.deletes = true ∧ o.stores entry = true := by
  obtain ⟨⟩ := o
  obtain ⟨rfl, rfl, rfl, rfl, rfl, rfl, rfl, rfl, rfl, rfl, rfl⟩ := allOk
  cases expires : entry.expires <;> simp [Outcomes.reaches, Outcomes.deletes, Outcomes.stores,
    Outcomes.quiet, Outcome.throws, Outcome.queues, Outcome.runs, expires]

end PhpExts.Redis.Rehash
