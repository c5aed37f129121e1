import Mathlib

/-!
# The time wheel of a reactor

`TimeWheel.c`: a ring of hash maps. A connection stands in the slot that is swept last; each
read puts it there again, and `swTimeWheel_forward` sweeps the current slot.

The sweep goes through the hash map by its iterator, and closes a connection whose events are
not watched any more in passing, which frees the node the iterator stands on.
-/

namespace PhpExts.Swoole.TimeWheel

/-- `swHashMap_node`, by its address. The data is the connection of the key. -/
structure Node where
  addr : Nat
  keyInt : Nat
  deriving DecidableEq

/-- `swHashMap`: the nodes behind the root in the order of their insertion, and the node the
iterator stands on. -/
structure HashMap where
  nodes : List Node
  iterator : Option Nat

namespace HashMap

/-- `swHashMap_new`. -/
def new : HashMap := ⟨[], none⟩

def keys (map : HashMap) : List Nat := map.nodes.map Node.keyInt

def addrs (map : HashMap) : List Nat := map.nodes.map Node.addr

/-- `swHashMap_add_int`: the node goes to the tail, and does not replace one of its key. -/
def addInt (map : HashMap) (addr key : Nat) : HashMap :=
  { map with nodes := map.nodes ++ [⟨addr, key⟩] }

/-- `swHashMap_del_int`. A bucket has its last insertion in front, so of two nodes of the key the
later one goes. -/
def delInt (map : HashMap) (key : Nat) : HashMap :=
  { map with nodes := (map.nodes.reverse.eraseP (·.keyInt = key)).reverse }

/-- `swHashMap_each_int`; nothing if the iterator stands on a node that is freed. -/
def each (map : HashMap) : Option (Option Node × HashMap) :=
  match map.nodes with
  | [] => some (none, map)
  | first :: _ =>
    match map.iterator with
    | none => some (some first, { map with iterator := some first.addr })
    | some addr =>
      match map.nodes.dropWhile (·.addr ≠ addr) with
      | [] => none
      | [_] => some (none, { map with iterator := none })
      | _ :: tmp :: _ => some (some tmp, { map with iterator := some tmp.addr })

end HashMap

/-- The fields of `swConnection` that the wheel and the sweep use. -/
structure Connection where
  timewheelIndex : Nat
  closeForce : Bool
  closeNotify : Bool
  closeWait : Bool
  closeActively : Bool
  removed : Bool
  deriving DecidableEq

def Connection.zero : Connection := ⟨0, false, false, false, false, false⟩

/-- `swTimeWheel`, the connection list, and the next address `sw_malloc` gives out. -/
structure Reactor where
  size : Nat
  current : Nat
  wheel : Nat → HashMap
  connections : Nat → Connection
  addr : Nat

namespace Reactor

/-- `swTimeWheel_new`, before there is a connection. -/
def new (size : Nat) : Reactor := ⟨size, 0, fun _ => .new, fun _ => .zero, 0⟩

def setSlot (r : Reactor) (index : Nat) (map : HashMap) : Reactor :=
  { r with wheel := Function.update r.wheel index map }

def setConnection (r : Reactor) (fd : Nat) (conn : Connection) : Reactor :=
  { r with connections := Function.update r.connections fd conn }

def newIndex (r : Reactor) : Nat := if r.current = 0 then r.size - 1 else r.current - 1

/-- `swTimeWheel_add`. -/
def add (r : Reactor) (fd : Nat) : Reactor :=
  let r' := (r.setSlot r.newIndex ((r.wheel r.newIndex).addInt r.addr fd)).setConnection fd
    { r.connections fd with timewheelIndex := r.newIndex }
  { r' with addr := r.addr + 1 }

def update (r : Reactor) (fd : Nat) : Reactor :=
  let added := r.setSlot r.newIndex ((r.wheel r.newIndex).addInt r.addr fd)
  let old := (r.connections fd).timewheelIndex
  let r' := (added.setSlot old ((added.wheel old).delInt fd)).setConnection fd
    { r.connections fd with timewheelIndex := r.newIndex }
  { r' with addr := r.addr + 1 }

def remove (r : Reactor) (fd : Nat) : Reactor :=
  let index := (r.connections fd).timewheelIndex
  r.setSlot index ((r.wheel index).delInt fd)

/-- `swReactorThread_close`: out of the wheel, and `swReactor_close` clears the record. -/
def close (r : Reactor) (fd : Nat) : Reactor :=
  (r.remove fd).setConnection fd { Connection.zero with removed := true }

/-- `swReactor_add` and `swReactor_del`. -/
def setRemoved (r : Reactor) (fd : Nat) (removed : Bool) : Reactor :=
  r.setConnection fd { r.connections fd with removed := removed }

/-- The four flags `swTimeWheel_forward` sets. -/
def mark (conn : Connection) : Connection :=
  { conn with
    closeForce := true
    closeNotify := true
    closeWait := true
    closeActively := true }

def visit (r : Reactor) (fd : Nat) : Reactor :=
  let marked := r.setConnection fd (mark (r.connections fd))
  if (r.connections fd).removed then marked.close fd else marked

end Reactor

inductive Swept where
  | returned (r : Reactor) (visited : List Nat)
  | freed
  | unfinished

def Swept.after (fd : Nat) : Swept → Swept
  | .returned r visited => .returned r (fd :: visited)
  | .freed => .freed
  | .unfinished => .unfinished

namespace Reactor

/-- The loop of `swTimeWheel_forward` over a slot. -/
def sweep (slot : Nat) : Nat → Reactor → Swept
  | 0, _ => .unfinished
  | fuel + 1, r =>
    match (r.wheel slot).each with
    | none => .freed
    | some (none, set) => .returned (r.setSlot slot set) []
    | some (some node, set) =>
      (sweep slot fuel ((r.setSlot slot set).visit node.keyInt)).after node.keyInt

def advance (r : Reactor) : Reactor :=
  { r with current := if r.current = r.size - 1 then 0 else r.current + 1 }

def forward (r : Reactor) : Swept :=
  sweep r.current ((r.wheel r.current).nodes.length + 1) r.advance

end Reactor

/-! ## The hash map's functions -/

namespace HashMap

variable {map : HashMap} {key : Nat}

theorem delInt_addInt (addr : Nat) : (map.addInt addr key).delInt key = map := by
  simp [delInt, addInt]

theorem eraseP_key {nodes : List Node} (distinct : (nodes.map Node.keyInt).Nodup) (key : Nat) :
    nodes.eraseP (·.keyInt = key) = nodes.filter (·.keyInt ≠ key) := by
  induction nodes with
  | nil => rfl
  | cons node nodes ih =>
    obtain ⟨fresh, distinct⟩ := List.nodup_cons.mp distinct
    by_cases here : node.keyInt = key
    · have others : nodes.filter (·.keyInt ≠ key) = nodes := by
        rw [List.filter_eq_self]
        intro other mem
        have : other.keyInt ≠ node.keyInt := fun same =>
          fresh (same ▸ List.mem_map_of_mem mem)
        simpa [here] using this
      rw [List.eraseP_cons_of_pos (by simpa using here), List.filter_cons_of_neg (by simp [here]),
        others]
    · rw [List.eraseP_cons_of_neg (by simpa using here), List.filter_cons_of_pos (by simp [here]),
        ih distinct]

theorem nodes_delInt (distinct : map.keys.Nodup) (key : Nat) :
    (map.delInt key).nodes = map.nodes.filter (·.keyInt ≠ key) := by
  have reversed : (map.nodes.reverse.map Node.keyInt).Nodup := by
    rw [List.map_reverse]
    exact List.nodup_reverse.mpr distinct
  simp only [delInt]
  rw [eraseP_key reversed, List.filter_reverse, List.reverse_reverse]

theorem each_nil (empty : map.nodes = []) : map.each = some (none, map) := by
  simp [each, empty]

theorem each_start {node : Node} {rest : List Node} (nodes : map.nodes = node :: rest)
    (start : map.iterator = none) :
    map.each = some (some node, { map with iterator := some node.addr }) := by
  simp [each, nodes, start]

theorem each_next {before rest : List Node} {node : Node}
    (nodes : map.nodes = before ++ node :: rest) (here : map.iterator = some node.addr)
    (distinct : map.addrs.Nodup) : map.each = match rest with
      | [] => some (none, { map with iterator := none })
      | next :: _ => some (some next, { map with iterator := some next.addr }) := by
  have dropped : map.nodes.dropWhile (·.addr ≠ node.addr) = node :: rest := by
    rw [nodes, List.dropWhile_append_of_pos]
    · simp
    · intro other mem
      rw [addrs, nodes, List.map_append, List.nodup_append] at distinct
      simpa using distinct.2.2 other.addr (List.mem_map_of_mem mem) node.addr (by simp)
  unfold each
  split
  · rename_i empty
    simp [nodes] at empty
  · rw [here]
    simp only [dropped]
    cases rest <;> rfl

theorem each_freed {addr : Nat} (some_node : map.nodes ≠ []) (iterator : map.iterator = some addr)
    (freed : addr ∉ map.addrs) : map.each = none := by
  have dropped : map.nodes.dropWhile (·.addr ≠ addr) = [] := by
    rw [List.dropWhile_eq_nil_iff]
    intro node mem
    have : node.addr ≠ addr := fun same => freed (same ▸ List.mem_map_of_mem mem)
    simpa using this
  unfold each
  split
  · exact absurd ‹_› some_node
  · rw [iterator]
    simp only [dropped]

end HashMap

end PhpExts.Swoole.TimeWheel
