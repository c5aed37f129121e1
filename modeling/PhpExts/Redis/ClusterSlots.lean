import PhpExts.Redis.ArrayMget
import PhpExts.Swoole.RedisProtocol
import Mathlib

/-!
# The slots of a cluster under redirections

The nodes of a cluster are in a table under `host:port`, and each slot points to one of them. A
`MOVED` points its slot to the node that it names, an `ASK` only looks for it; either creates the
node where it is unknown, and only one of the three places where this is done adds it to the table.

Numbers of nodes stand for their addresses.
-/

namespace PhpExts.Redis.Slots

open Function (update update_of_ne update_self)

open PhpExts.Swoole.RedisProtocol (strtol isDigit decimal crlf Denotes strtol_digits)
open PhpExts.Swoole.LengthProtocol (asInt)

/-- `strrchr`, as what stands before the byte and behind it. -/
def strrchr (string : List UInt8) (byte : UInt8) : Option (List UInt8 × List UInt8) :=
  match string.reverse.dropWhile (· != byte) with
  | [] => none
  | _ :: before => some (before.reverse, (string.reverse.takeWhile (· != byte)).reverse)

def atoi (string : List UInt8) : Int := asInt (strtol string).1

/-- A cast to `unsigned short`. -/
def unsignedShort (n : Int) : Nat := (n % 2 ^ 16).toNat

/-- `%d` of what is not negative. -/
def printNumber (n : Nat) : List UInt8 :=
  (Nat.toDigits 10 n).map fun digit => UInt8.ofNat digit.toNat

/-- `%s:%d`. -/
def nodeKey (host : List UInt8) (port : Nat) : List UInt8 := host ++ 58 :: printNumber port

/-- `redisClusterNode`, with the host and port of its socket. -/
structure RedisClusterNode where
  host : List UInt8
  port : Nat
  slot : Nat
  slave : Bool
  deriving DecidableEq

inductive RedirType where
  | none
  | moved
  | ask
  deriving DecidableEq

/-- `redisCluster`: `node` are the nodes that have been created, `created` in number, apart from
the slaves that belong to a master alone. -/
structure RedisCluster where
  node : Nat → RedisClusterNode
  created : Nat
  nodes : List UInt8 → Option Nat
  master : Nat → Option Nat
  redirType : RedirType
  redirHost : List UInt8
  redirHostLen : Nat
  redirSlot : Nat
  redirPort : Nat

/-- `cluster_create`. -/
def RedisCluster.empty : RedisCluster where
  node := fun _ => ⟨[], 0, 0, false⟩
  created := 0
  nodes := fun _ => none
  master := fun _ => none
  redirType := .none
  redirHost := []
  redirHostLen := 0
  redirSlot := 0
  redirPort := 0

def clusterNodeCreate (c : RedisCluster) (host : List UInt8) (port slot : Nat) (slave : Bool) :
    Nat × RedisCluster :=
  (c.created,
    { c with
      node := update c.node c.created ⟨host, port, slot, slave⟩
      created := c.created + 1 })

/-- `zend_hash_str_update_ptr` on `c->nodes`. -/
def RedisCluster.register (c : RedisCluster) (key : List UInt8) (id : Nat) : RedisCluster :=
  { c with nodes := update c.nodes key (some id) }

/-! ## The first mapping -/

/-- An element of the reply to `CLUSTER SLOTS`, without its slaves. The name of the host is text,
and its key fits an array of 1024 bytes. -/
structure SlotRange where
  low : Nat
  high : Nat
  host : List UInt8
  port : Nat
  high_lt : high < 16384
  host_plain : 0 ∉ host
  host_fits : host.length ≤ 1017
  port_lt : port < 65536

/-- One round of the loop in `cluster_map_slots`. -/
def mapRange (c : RedisCluster) (range : SlotRange) : RedisCluster :=
  let key := nodeKey range.host range.port
  let (master, c) := match c.nodes key with
    | some node => (node, c)
    | none =>
      let (master, c) := clusterNodeCreate c range.host range.port range.low false
      (master, c.register key master)
  { c with master := fun slot =>
      if range.low ≤ slot ∧ slot ≤ range.high then some master else c.master slot }

/-- `cluster_map_slots`; nothing stands for an element that is not valid. -/
def clusterMapSlots : List (Option SlotRange) → RedisCluster → Int × RedisCluster
  | [], c => (0, c)
  | none :: _, c => (-1, c)
  | some range :: rest, c => clusterMapSlots rest (mapRange c range)

/-- `cluster_map_keyspace`, with the reply of each seed that has one. -/
def clusterMapKeyspace : List (List (Option SlotRange)) → RedisCluster → Int × RedisCluster
  | [], c => (-1, c)
  | slots :: rest, c =>
    let (mapped, c) := clusterMapSlots slots c
    if mapped = 0 then (0, c)
    else clusterMapKeyspace rest { c with master := fun _ => none }

/-- `cluster_set_redirection`, for the bytes of a C string. The host goes to an array of 255
bytes, of which the last stays zero; its length is that of the message. -/
def clusterSetRedirection (c : RedisCluster) (msg : List UInt8) (moved : Bool) :
    Option RedisCluster :=
  match strchr (msg.drop (if moved then 6 else 4)) 32 with
  | none => none
  | some (slot, rest) =>
    match strrchr rest 58 with
    | none => none
    | some (host, port) => some { c with
        redirType := if moved then .moved else .ask
        redirHost := host.take 254
        redirHostLen := host.length
        redirSlot := unsignedShort (atoi slot)
        redirPort := unsignedShort (atoi port) }

/-- `redir_host_len` bytes from the start of `redir_host`; those behind the array are the bytes of
the next members. -/
def RedisCluster.redirBytes (behind : Nat → UInt8) (c : RedisCluster) : List UInt8 :=
  (List.range c.redirHostLen).map fun i => if i < 255 then c.redirHost.getD i 0 else behind i

/-- `cluster_find_node`, for the host and port of the redirection. -/
def clusterFindNode (c : RedisCluster) : Option Nat :=
  c.nodes (nodeKey c.redirHost c.redirPort)

/-- `cluster_node_create`, with the host, port and slot of the redirection. -/
def createRedirected (behind : Nat → UInt8) (c : RedisCluster) : Nat × RedisCluster :=
  clusterNodeCreate c (c.redirBytes behind) c.redirPort c.redirSlot false

def clusterGetAskingNode (behind : Nat → UInt8) (c : RedisCluster) : Nat × RedisCluster :=
  match clusterFindNode c with
  | some node => (node, c)
  | none => createRedirected behind c

def clusterRedirCmp (behind : Nat → UInt8) (c : RedisCluster) (node : Nat) : Bool :=
  (c.node node).port ≠ c.redirPort || (c.node node).host.length ≠ c.redirHostLen ||
    (c.node node).host ≠ c.redirBytes behind

/-- The end of `cluster_update_slot`. -/
def pointTo (c : RedisCluster) (node : Nat) : RedisCluster :=
  { c with
    master := update c.master c.redirSlot (some node)
    node := update c.node node
      { c.node node with slot := c.redirSlot, slave := false } }

def clusterUpdateSlot (behind : Nat → UInt8) (c : RedisCluster) : RedisCluster :=
  match c.master c.redirSlot with
  | some mapped =>
    if ¬ clusterRedirCmp behind c mapped then c
    else
      match clusterFindNode c with
      | some node => pointTo c node
      | none =>
        let (node, c) := createRedirected behind c
        pointTo (c.register (nodeKey c.redirHost c.redirPort) node) node
  | none =>
    match clusterFindNode c with
    | some node => pointTo c node
    | none =>
      let (node, c) := createRedirected behind c
      pointTo c node

/-- A `MOVED` or an `ASK`, as a server announces it. -/
structure Redirection where
  moved : Bool
  slot : Nat
  host : List UInt8
  port : Nat
  slot_lt : slot < 16384
  port_lt : port < 65536

def Redirection.line (redirection : Redirection) : List UInt8 :=
  (if redirection.moved then [77, 79, 86, 69, 68, 32] else [65, 83, 75, 32]) ++
    printNumber redirection.slot ++ 32 :: nodeKey redirection.host redirection.port ++ crlf

theorem isDigit_toNat {byte : UInt8} (digit : isDigit byte = true) :
    48 ≤ byte.toNat ∧ byte.toNat ≤ 57 := by
  simp only [isDigit, Bool.and_eq_true, decide_eq_true_eq] at digit
  rw [UInt8.le_iff_toNat_le, UInt8.le_iff_toNat_le] at digit
  exact digit

theorem strrchr_append {before behind : List UInt8} {byte : UInt8} (last : byte ∉ behind) :
    strrchr (before ++ byte :: behind) byte = some (before, behind) := by
  have away : ∀ other ∈ behind.reverse, (other != byte) = true := fun other mem =>
    bne_iff_ne.mpr fun same => last (same ▸ List.mem_reverse.mp mem)
  rw [strrchr, List.reverse_append, List.reverse_cons, List.append_assoc, List.singleton_append,
    List.dropWhile_append_of_pos away, List.takeWhile_append_of_pos away]
  simp

theorem strchr_append {before behind : List UInt8} {byte : UInt8} (new : byte ∉ before) :
    strchr (before ++ byte :: behind) byte = some (before, behind) := by
  have away : ∀ other ∈ before, (other != byte) = true := fun other mem =>
    bne_iff_ne.mpr fun same => new (same ▸ mem)
  rw [strchr, List.dropWhile_append_of_pos away, List.takeWhile_append_of_pos away]
  simp

def RedisClusterNode.key (node : RedisClusterNode) : List UInt8 := nodeKey node.host node.port

structure Consistent (c : RedisCluster) : Prop where
  own : ∀ key id, c.nodes key = some id → id < c.created ∧ (c.node id).key = key
  created : ∀ id < c.created, c.nodes (c.node id).key = some id
  mapped : ∀ slot id, c.master slot = some id → id < c.created
  masters : ∀ id < c.created, (c.node id).slave = false

section

variable {behind : Nat → UInt8} {c : RedisCluster}

theorem Consistent.redirection (consistent : Consistent c) (redirType : RedirType)
    (redirHost : List UInt8) (redirHostLen redirSlot redirPort : Nat) :
    Consistent { c with
      redirType := redirType
      redirHost := redirHost
      redirHostLen := redirHostLen
      redirSlot := redirSlot
      redirPort := redirPort } :=
  ⟨consistent.own, consistent.created, consistent.mapped, consistent.masters⟩

theorem Consistent.remap (consistent : Consistent c) {master : Nat → Option Nat}
    (mapped : ∀ slot id, master slot = some id → id < c.created) :
    Consistent { c with master := master } :=
  ⟨consistent.own, consistent.created, mapped, consistent.masters⟩

theorem Consistent.create (consistent : Consistent c) {host : List UInt8} {port : Nat}
    (slot : Nat) (unknown : c.nodes (nodeKey host port) = none) :
    Consistent ((clusterNodeCreate c host port slot false).2.register (nodeKey host port)
      (clusterNodeCreate c host port slot false).1) := by
  have old : ∀ id < c.created, update c.node c.created ⟨host, port, slot, false⟩ id =
      c.node id := fun id older => update_of_ne older.ne _ _
  refine ⟨fun key id found => ?_, fun id older => ?_, fun slot id isMapped => ?_,
    fun id older => ?_⟩
  · simp only [clusterNodeCreate, RedisCluster.register] at found ⊢
    by_cases same : key = nodeKey host port
    · subst same
      rw [update_self, Option.some.injEq] at found
      subst found
      exact ⟨Nat.lt_succ_self _, by rw [update_self]; rfl⟩
    · rw [update_of_ne same] at found
      obtain ⟨older, isKey⟩ := consistent.own key id found
      exact ⟨Nat.lt_succ_of_lt older, by rw [old id older]; exact isKey⟩
  · simp only [clusterNodeCreate, RedisCluster.register] at older ⊢
    rcases Nat.lt_succ_iff_lt_or_eq.mp older with older | rfl
    · have known := consistent.created id older
      rw [old id older, update_of_ne, known]
      exact fun same => by simp [same, unknown] at known
    · rw [update_self]
      exact update_self _ _ _
  · exact Nat.lt_succ_of_lt (consistent.mapped slot id isMapped)
  · simp only [clusterNodeCreate, RedisCluster.register] at older ⊢
    rcases Nat.lt_succ_iff_lt_or_eq.mp older with older | rfl
    · rw [old id older]
      exact consistent.masters id older
    · rw [update_self]

theorem Consistent.pointTo (consistent : Consistent c) {node : Nat} (known : node < c.created) :
    Consistent (pointTo c node) := by
  have key : ∀ id, (update c.node node
      { c.node node with slot := c.redirSlot, slave := false } id).key = (c.node id).key := by
    intro id
    by_cases same : id = node
    · subst same
      rw [update_self]
      rfl
    · rw [update_of_ne same]
  refine ⟨fun string id found => ?_, fun id older => ?_, fun slot id isMapped => ?_,
    fun id older => ?_⟩
  · obtain ⟨older, isKey⟩ := consistent.own string id found
    exact ⟨older, (key id).trans isKey⟩
  · exact (congrArg c.nodes (key id)).trans (consistent.created id older)
  · by_cases same : slot = c.redirSlot
    · subst same
      have isNode : (Slots.pointTo c node).master c.redirSlot = some node :=
        update_self _ _ _
      exact Option.some.inj (isNode.symm.trans isMapped) ▸ known
    · exact consistent.mapped slot id ((update_of_ne same _ _).symm.trans isMapped)
  · by_cases same : id = node
    · subst same
      simp [Slots.pointTo]
    · have other : (Slots.pointTo c node).node id = c.node id := update_of_ne same _ _
      rw [other]
      exact consistent.masters id older

theorem Consistent.mapRange (consistent : Consistent c) (range : SlotRange) :
    Consistent (mapRange c range) := by
  rw [Slots.mapRange]
  cases found : c.nodes (nodeKey range.host range.port) with
  | some node =>
    refine consistent.remap fun slot id isMapped => ?_
    split at isMapped
    · exact Option.some.inj isMapped ▸ (consistent.own _ node found).1
    · exact consistent.mapped slot id isMapped
  | none =>
    have created := consistent.create range.low found
    refine created.remap fun slot id isMapped => ?_
    split at isMapped
    · exact Option.some.inj isMapped ▸ Nat.lt_succ_self _
    · exact created.mapped slot id isMapped

end

/-! ## Redirections of a consistent cluster -/

variable {behind : Nat → UInt8} {c : RedisCluster} {redirection : Redirection}

/-- The host fits its array, and its node is known, or is that of a `MOVED` for a mapped slot. -/
structure Follows (c : RedisCluster) (redirection : Redirection) : Prop where
  plain : 0 ∉ redirection.host
  fits : redirection.host.length ≤ 254
  known : c.nodes (nodeKey redirection.host redirection.port) ≠ none ∨
    redirection.moved = true ∧ c.master redirection.slot ≠ none

/-- The cluster once the redirection has been read. -/
def announced (c : RedisCluster) (redirection : Redirection) : RedisCluster :=
  { c with
    redirType := if redirection.moved then .moved else .ask
    redirHost := redirection.host
    redirHostLen := redirection.host.length
    redirSlot := redirection.slot
    redirPort := redirection.port }

/-- What the table is for: each slot points to a node that is in it under its own key, no two nodes
in it share a host and port, and all that have been created are in it. -/
structure Tabled (c : RedisCluster) : Prop where
  slots : ∀ slot id, c.master slot = some id → c.nodes (c.node id).key = some id
  distinct : ∀ key key' id id', c.nodes key = some id → c.nodes key' = some id' →
    (c.node id).host = (c.node id').host → (c.node id).port = (c.node id').port → id = id'
  created : ∀ id < c.created, ∃ key, c.nodes key = some id

def oneNode : List (List (Option SlotRange)) :=
  [[some ⟨0, 16383, [97], 7000, by decide, by decide, by decide, by decide⟩]]

end PhpExts.Redis.Slots
