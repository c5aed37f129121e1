import PhpExts.Swoole.SerializeRoundTrip
import Mathlib

/-!
# The hash map

A `swHashMap` is a table of uthash around a root that is in the order of the nodes and in no bucket.
For strings it has its own steps to add and to delete a node, for integers it takes those of
uthash, with a key of the width of an `int`. A node is found by the width of its key and the bytes
that the handle leads to: for a string these are a copy that ends with the first zero byte, and for
an integer the lower half.

As long as no string that is kept has a zero byte before its last byte, and no integer is used while
a different one with the same lower half is there, the map is a finite map in the order in which
the keys came (`isMap_of_kind`).
-/

namespace PhpExts.Swoole.SwHashMap

open Serialize (Bytes leNat leBytes leBytes_length leNat_leBytes)
open List (count_append count_cons count_nil length_cons map_append map_cons mem_append nodup_cons
  nodup_middle not_mem_nil take_length mem_cons map_singleton)

/-! ## Nodes and buckets -/

/-- `swHashMap_node`: the key, and of its handle the bytes that `hh.key` leads to, `hh.keylen` and
`hh.hashv`. -/
structure Node (δ : Type) where
  keyInt : Nat
  keyStr : Bytes
  data : δ
  key : Bytes
  keylen : Nat
  hashv : Nat

/-- `UT_hash_bucket`: the nodes from `hh_head` on. -/
structure Bucket where
  chain : List Nat
  count : Nat
  expandMult : Nat

structure UtHashTable where
  buckets : Nat → Bucket
  numBuckets : Nat
  log2NumBuckets : Nat
  numItems : Nat
  idealChainMaxlen : Nat
  nonidealItems : Nat
  ineffExpands : Nat
  noexpand : Bool

/-- `swHashMap`: its nodes by their addresses, those behind the root in their order, where the next
node is allocated, and what has been destroyed. -/
structure HashMap (δ : Type) where
  table : UtHashTable
  nodes : Nat → Option (Node δ)
  order : List Nat
  iterator : Option Nat
  dtor : Bool
  next : Nat
  destroyed : List δ

/-- `swHashMap_new`; `bucket_num` is not used. -/
def HashMap.new {δ : Type} (dtor : Bool) : HashMap δ where
  table := ⟨fun _ => ⟨[], 0, 0⟩, 32, 5, 0, 0, 0, 0, false⟩
  nodes := fun _ => none
  order := []
  iterator := none
  dtor := dtor
  next := 0
  destroyed := []

def hashToBkt (hashv numBkts : Nat) : Nat := hashv &&& (numBkts - 1)

section

variable (hashv : Nat → Nat)

def rehash (numBkts idealChainMaxlen : Nat) (moved : (Nat → Bucket) × Nat) (id : Nat) :
    (Nat → Bucket) × Nat :=
  let bkt := hashToBkt (hashv id) numBkts
  let newbkt := moved.1 bkt
  let count := newbkt.count + 1
  if count > idealChainMaxlen then
    (Function.update moved.1 bkt ⟨id :: newbkt.chain, count, count / idealChainMaxlen⟩,
      moved.2 + 1)
  else (Function.update moved.1 bkt ⟨id :: newbkt.chain, count, newbkt.expandMult⟩, moved.2)

def UtHashTable.items (tbl : UtHashTable) : List Nat :=
  (List.range tbl.numBuckets).flatMap fun i => (tbl.buckets i).chain

def hashExpandBuckets (tbl : UtHashTable) : UtHashTable :=
  let ideal := (tbl.numItems >>> (tbl.log2NumBuckets + 1)) +
    (if tbl.numItems &&& (tbl.numBuckets * 2 - 1) ≠ 0 then 1 else 0)
  let moved := tbl.items.foldl (rehash hashv (tbl.numBuckets * 2) ideal) (fun _ => ⟨[], 0, 0⟩, 0)
  let ineff := if moved.2 > tbl.numItems >>> 1 then tbl.ineffExpands + 1 else 0
  { tbl with
    buckets := moved.1
    numBuckets := tbl.numBuckets * 2
    log2NumBuckets := tbl.log2NumBuckets + 1
    idealChainMaxlen := ideal
    nonidealItems := moved.2
    ineffExpands := ineff
    noexpand := tbl.noexpand || decide (ineff > 1) }

/-- `HASH_ADD_TO_BKT`, for a bucket of the table. -/
def hashAddToBkt (tbl : UtHashTable) (id : Nat) : UtHashTable :=
  let bkt := hashToBkt (hashv id) tbl.numBuckets
  let head := tbl.buckets bkt
  let tbl' := { tbl with
    buckets := Function.update tbl.buckets bkt ⟨id :: head.chain, head.count + 1, head.expandMult⟩ }
  if head.count + 1 ≥ (head.expandMult + 1) * 10 ∧ tbl.noexpand = false then
    hashExpandBuckets hashv tbl'
  else tbl'

def hashDelInBkt (tbl : UtHashTable) (id : Nat) : UtHashTable :=
  let bkt := hashToBkt (hashv id) tbl.numBuckets
  let head := tbl.buckets bkt
  { tbl with
    buckets := Function.update tbl.buckets bkt
      ⟨head.chain.erase id, head.count - 1, head.expandMult⟩ }

end

/-- How the functions for a kind of key give, keep and compare it: the bytes that the caller's
pointer leads to and how many count, `key_int` and `key_str` of a node, and the bytes that its
handle leads to. -/
structure Kind (κ : Type) where
  given : κ → Bytes
  keylen : κ → Nat
  keyInt : κ → Nat
  keyStr : κ → Bytes
  handle : κ → Bytes
  hash : Bytes → Nat
  read : Nat → Bytes → κ

/-- `strndup`, with what lies behind the copy. -/
def strndup (behind : Bytes → Bytes) (key : Bytes) : Bytes :=
  key.takeWhile (· ≠ 0) ++ 0 :: behind key

/-- The keys of `swHashMap_add`, with a `uint16_t` for the length. -/
def stringKind (hash : Bytes → Nat) (behind : Bytes → Bytes) : Kind Bytes where
  given := id
  keylen key := key.length % 2 ^ 16
  keyInt key := key.length % 2 ^ 16
  keyStr key := strndup behind (key.take (key.length % 2 ^ 16))
  handle key := strndup behind (key.take (key.length % 2 ^ 16))
  hash := hash
  read keyInt keyStr := keyStr.take keyInt

/-- The keys of `swHashMap_add_int`; `HASH_ADD_INT` and `HASH_FIND_INT` count `sizeof(int)`
bytes. -/
def intKind (hash : Bytes → Nat) : Kind UInt64 where
  given key := leBytes 8 key.toNat
  keylen _ := 4
  keyInt := UInt64.toNat
  keyStr _ := []
  handle key := leBytes 8 key.toNat
  hash := hash
  read keyInt _ := UInt64.ofNat keyInt

section

variable {κ δ : Type} (kind : Kind κ)

def Kind.node (key : κ) (data : δ) : Node δ where
  keyInt := kind.keyInt key
  keyStr := kind.keyStr key
  data := data
  key := kind.handle key
  keylen := kind.keylen key
  hashv := kind.hash ((kind.handle key).take (kind.keylen key))

/-- `hh.hashv` of a node. -/
def HashMap.hashv (hmap : HashMap δ) (id : Nat) : Nat := ((hmap.nodes id).map Node.hashv).getD 0

/-- `swHashMap_node_add` or `HASH_ADD_KEYPTR`, at the end of the order. -/
def HashMap.nodeAdd (hmap : HashMap δ) (id : Nat) (node : Node δ) : HashMap δ :=
  let hmap := { hmap with
    nodes := Function.update hmap.nodes id (some node)
    order := hmap.order ++ [id] }
  { hmap with
    table := hashAddToBkt hmap.hashv { hmap.table with numItems := hmap.table.numItems + 1 } id }

/-- `swHashMap_node_delete` or `HASH_DELETE`: the root is before every node. -/
def HashMap.nodeDelete (hmap : HashMap δ) (id : Nat) : HashMap δ :=
  let tbl := hashDelInBkt hmap.hashv hmap.table id
  { hmap with
    order := hmap.order.erase id
    table := { tbl with numItems := tbl.numItems - 1 } }

/-- `HASH_FIND_IN_BKT`, in the bucket of the key. -/
def HashMap.nodeFind (hmap : HashMap δ) (key : κ) : Option Nat :=
  let bytes := (kind.given key).take (kind.keylen key)
  let bucket := hashToBkt (kind.hash bytes) hmap.table.numBuckets
  (hmap.table.buckets bucket).chain.find? fun id =>
    match hmap.nodes id with
    | none => false
    | some node => node.keylen == kind.keylen key && node.key.take (kind.keylen key) == bytes

def HashMap.nodeDtor (hmap : HashMap δ) (node : Node δ) : HashMap δ :=
  if hmap.dtor then { hmap with destroyed := hmap.destroyed ++ [node.data] } else hmap

/-- `swHashMap_add` or `swHashMap_add_int`. -/
def HashMap.add (hmap : HashMap δ) (key : κ) (data : δ) : HashMap δ :=
  { hmap with next := hmap.next + 1 }.nodeAdd hmap.next (kind.node key data)

/-- `swHashMap_find` or `swHashMap_find_int`. -/
def HashMap.find (hmap : HashMap δ) (key : κ) : Option δ := do
  let id ← hmap.nodeFind kind key
  let node ← hmap.nodes id
  some node.data

/-- `swHashMap_update` or `swHashMap_update_int`, and whether the key is there. -/
def HashMap.update (hmap : HashMap δ) (key : κ) (data : δ) : HashMap δ × Bool :=
  match hmap.nodeFind kind key with
  | none => (hmap, false)
  | some id =>
    match hmap.nodes id with
    | none => (hmap, false)
    | some node =>
      let hmap := hmap.nodeDtor node
      ({ hmap with nodes := Function.update hmap.nodes id (some { node with data := data }) },
        true)

/-- `swHashMap_del` or `swHashMap_del_int`: the node is freed after it has been deleted. -/
def HashMap.del (hmap : HashMap δ) (key : κ) : HashMap δ × Bool :=
  match hmap.nodeFind kind key with
  | none => (hmap, false)
  | some id =>
    match hmap.nodes id with
    | none => (hmap, false)
    | some node =>
      let hmap := (hmap.nodeDelete id).nodeDtor node
      ({ hmap with nodes := Function.update hmap.nodes id none }, true)

/-- `swHashMap_move` or `swHashMap_move_int`: the node is added again under another key. -/
def HashMap.move (hmap : HashMap δ) (oldKey newKey : κ) : HashMap δ × Bool :=
  match hmap.nodeFind kind oldKey with
  | none => (hmap, false)
  | some id =>
    match hmap.nodes id with
    | none => (hmap, false)
    | some node => ((hmap.nodeDelete id).nodeAdd id (kind.node newKey node.data), true)

/-- `hh.next` -/
def after (order : List Nat) (id : Nat) : Option Nat := (order.dropWhile (· ≠ id)).tail.head?

def HashMap.nodeEach (hmap : HashMap δ) : Option Nat × HashMap δ :=
  if hmap.table.numItems = 0 then (none, hmap)
  else
    let tmp :=
      match hmap.iterator with
      | none => hmap.order.head?
      | some iterator => after hmap.order iterator
    (tmp, { hmap with iterator := tmp })

/-- `swHashMap_each` or `swHashMap_each_int`, called until there is nothing more, with a bound on
the calls. -/
def HashMap.eachLoop : Nat → HashMap δ → List (κ × δ) × HashMap δ
  | 0, hmap => ([], hmap)
  | fuel + 1, hmap =>
    match hmap.nodeEach with
    | (none, hmap) => ([], hmap)
    | (some id, hmap) =>
      match hmap.nodes id with
      | none => ([], hmap)
      | some node =>
        let (rest, hmap) := eachLoop fuel hmap
        ((kind.read node.keyInt node.keyStr, node.data) :: rest, hmap)

def HashMap.each (hmap : HashMap δ) : List (κ × δ) × HashMap δ :=
  hmap.eachLoop kind (hmap.order.length + 1)

def HashMap.count (hmap : HashMap δ) : Nat := hmap.table.numItems

inductive Call (κ δ : Type) where
  | add (key : κ) (data : δ)
  | find (key : κ)
  | update (key : κ) (data : δ)
  | del (key : κ)
  | move (oldKey newKey : κ)
  | each
  | count

inductive Reply (κ δ : Type) where
  | done (ok : Bool)
  | found (data : Option δ)
  | pairs (pairs : List (κ × δ))
  | count (count : Nat)

def HashMap.call (hmap : HashMap δ) : Call κ δ → HashMap δ × Reply κ δ
  | .add key data => (hmap.add kind key data, .done true)
  | .find key => (hmap, .found (hmap.find kind key))
  | .update key data => ((hmap.update kind key data).1, .done (hmap.update kind key data).2)
  | .del key => ((hmap.del kind key).1, .done (hmap.del kind key).2)
  | .move oldKey newKey =>
    ((hmap.move kind oldKey newKey).1, .done (hmap.move kind oldKey newKey).2)
  | .each => ((hmap.each kind).2, .pairs (hmap.each kind).1)
  | .count => (hmap, .count hmap.count)

def HashMap.run : HashMap δ → List (Call κ δ) → HashMap δ × List (Reply κ δ)
  | hmap, [] => (hmap, [])
  | hmap, call :: calls =>
    let (hmap, reply) := hmap.call kind call
    let (hmap, replies) := run hmap calls
    (hmap, reply :: replies)

end

section

variable {hashv hashv' : Nat → Nat} {ids : List Nat} {tbl : UtHashTable} {numBkts : Nat}

structure Filled (hashv : Nat → Nat) (numBkts : Nat) (ids : List Nat) (buckets : Nat → Bucket) :
    Prop where
  mem : ∀ i id, id ∈ (buckets i).chain ↔ id ∈ ids ∧ hashToBkt (hashv id) numBkts = i
  nodup : ∀ i, (buckets i).chain.Nodup

structure Filed (hashv : Nat → Nat) (ids : List Nat) (tbl : UtHashTable) : Prop where
  pos : 0 < tbl.numBuckets
  filled : Filled hashv tbl.numBuckets ids tbl.buckets
  numItems : tbl.numItems = ids.length

theorem hashToBkt_lt (h : Nat) (pos : 0 < numBkts) : hashToBkt h numBkts < numBkts := by
  have le : h &&& (numBkts - 1) ≤ numBkts - 1 := Nat.and_le_right
  rw [hashToBkt]
  omega

theorem Filled.congr {buckets : Nat → Bucket} (filled : Filled hashv numBkts ids buckets)
    (same : ∀ id ∈ ids, hashv' id = hashv id) : Filled hashv' numBkts ids buckets := by
  refine ⟨fun i id => (filled.mem i id).trans ?_, filled.nodup⟩
  exact and_congr_right fun mem => by rw [same id mem]

theorem Filled.push {buckets : Nat → Bucket} (filled : Filled hashv numBkts ids buckets) {id : Nat}
    (fresh : id ∉ ids) (count expandMult : Nat) :
    Filled hashv numBkts (ids ++ [id]) (Function.update buckets (hashToBkt (hashv id) numBkts)
      ⟨id :: (buckets (hashToBkt (hashv id) numBkts)).chain, count, expandMult⟩) := by
  have absent (i : Nat) : id ∉ (buckets i).chain := fun mem =>
    fresh ((filled.mem i id).mp mem).1
  constructor
  · intro i other
    rw [mem_append, List.mem_singleton, or_and_right]
    by_cases here : i = hashToBkt (hashv id) numBkts
    · rw [here, Function.update_self, mem_cons, filled.mem, or_comm]
      refine or_congr_right ⟨fun same => ⟨same, by rw [same]⟩, And.left⟩
    · rw [Function.update_of_ne here, filled.mem]
      refine (or_iff_left ?_).symm
      rintro ⟨rfl, there⟩
      exact here there.symm
  · intro i
    by_cases here : i = hashToBkt (hashv id) numBkts
    · rw [here, Function.update_self]
      exact List.nodup_cons.mpr ⟨absent _, filled.nodup _⟩
    · rw [Function.update_of_ne here]
      exact filled.nodup i

theorem Filled.erase {buckets : Nat → Bucket} (filled : Filled hashv numBkts ids buckets) {id : Nat}
    (nodup : ids.Nodup) (count expandMult : Nat) :
    Filled hashv numBkts (ids.erase id) (Function.update buckets (hashToBkt (hashv id) numBkts)
      ⟨(buckets (hashToBkt (hashv id) numBkts)).chain.erase id, count, expandMult⟩) := by
  constructor
  · intro i other
    rw [nodup.mem_erase_iff, and_assoc, ← filled.mem]
    by_cases here : i = hashToBkt (hashv id) numBkts
    · rw [here, Function.update_self, (filled.nodup _).mem_erase_iff]
    · rw [Function.update_of_ne here]
      refine (and_iff_right_of_imp ?_).symm
      rintro mem rfl
      exact here ((filled.mem i other).mp mem).2.symm
  · intro i
    by_cases here : i = hashToBkt (hashv id) numBkts
    · rw [here, Function.update_self]
      exact (filled.nodup _).erase id
    · rw [Function.update_of_ne here]
      exact filled.nodup i

theorem Filled.rehash (ideal : Nat) {moved : (Nat → Bucket) × Nat} (items : List Nat)
    (filled : Filled hashv numBkts ids moved.1) (nodup : (ids ++ items).Nodup) :
    Filled hashv numBkts (ids ++ items)
      (items.foldl (SwHashMap.rehash hashv numBkts ideal) moved).1 := by
  induction items generalizing ids moved with
  | nil => rwa [List.append_nil]
  | cons id items ih =>
    have fresh : id ∉ ids := fun mem =>
      (List.nodup_append.mp nodup).2.2 id mem id (.head _) rfl
    rw [List.append_cons] at nodup ⊢
    refine ih ?_ nodup
    rw [SwHashMap.rehash]
    split
    · exact filled.push fresh _ _
    · exact filled.push fresh _ _

theorem Filed.mem_items (filed : Filed hashv ids tbl) (id : Nat) : id ∈ tbl.items ↔ id ∈ ids := by
  rw [UtHashTable.items, List.mem_flatMap]
  constructor
  · rintro ⟨i, -, mem⟩
    exact ((filed.filled.mem i id).mp mem).1
  · intro mem
    exact ⟨_, List.mem_range.mpr (hashToBkt_lt _ filed.pos),
      (filed.filled.mem _ id).mpr ⟨mem, rfl⟩⟩

theorem Filed.nodup_items (filed : Filed hashv ids tbl) : tbl.items.Nodup := by
  rw [UtHashTable.items, List.nodup_flatMap]
  refine ⟨fun i _ => filed.filled.nodup i, List.nodup_range.imp fun {i j} differ => ?_⟩
  intro id inFirst inSecond
  exact differ (((filed.filled.mem i id).mp inFirst).2.symm.trans
    ((filed.filled.mem j id).mp inSecond).2)

theorem Filed.expand (filed : Filed hashv ids tbl) :
    Filed hashv ids (hashExpandBuckets hashv tbl) where
  pos := Nat.mul_pos filed.pos (by decide)
  filled := by
    have empty : Filled hashv (tbl.numBuckets * 2) [] fun _ => ⟨[], 0, 0⟩ :=
      ⟨fun _ _ => iff_of_false not_mem_nil (fun both => not_mem_nil both.1),
        fun _ => .nil⟩
    have moved := @Filled.rehash _ _ _ ((tbl.numItems >>> (tbl.log2NumBuckets + 1)) +
      (if tbl.numItems &&& (tbl.numBuckets * 2 - 1) ≠ 0 then 1 else 0)) (_, 0) tbl.items empty
      (by rw [List.nil_append]; exact filed.nodup_items)
    rw [List.nil_append] at moved
    refine ⟨fun i id => (moved.mem i id).trans ?_, moved.nodup⟩
    rw [filed.mem_items]
    rfl
  numItems := filed.numItems

theorem Filed.congr (filed : Filed hashv ids tbl) (same : ∀ id ∈ ids, hashv' id = hashv id) :
    Filed hashv' ids tbl := ⟨filed.pos, filed.filled.congr same, filed.numItems⟩

theorem Filed.add (filed : Filed hashv ids tbl) {id : Nat} (fresh : id ∉ ids) :
    Filed hashv (ids ++ [id])
      (hashAddToBkt hashv { tbl with numItems := tbl.numItems + 1 } id) := by
  have pushed (count expandMult : Nat) : Filed hashv (ids ++ [id]) { tbl with
      numItems := tbl.numItems + 1
      buckets := Function.update tbl.buckets (hashToBkt (hashv id) tbl.numBuckets)
        ⟨id :: (tbl.buckets (hashToBkt (hashv id) tbl.numBuckets)).chain, count, expandMult⟩ } :=
    ⟨filed.pos, filed.filled.push fresh count expandMult, by
      rw [List.length_append, List.length_singleton, ← filed.numItems]⟩
  rw [hashAddToBkt]
  split
  · exact (pushed _ _).expand
  · exact pushed _ _

theorem Filed.del (filed : Filed hashv ids tbl) (nodup : ids.Nodup) {id : Nat} (mem : id ∈ ids) :
    Filed hashv (ids.erase id) { hashDelInBkt hashv tbl id with
      numItems := (hashDelInBkt hashv tbl id).numItems - 1 } where
  pos := filed.pos
  filled := filed.filled.erase nodup _ _
  numItems := by
    rw [List.length_erase_of_mem mem, ← filed.numItems]
    rfl

end

section

variable {κ δ : Type} [DecidableEq κ]

/-- What a map is for: its keys with their data in the order in which they came, the data that have
been destroyed, and all that have been stored. -/
structure Contents (κ δ : Type) where
  pairs : List (κ × δ)
  destroyed : List δ
  stored : List δ

def Contents.empty : Contents κ δ := ⟨[], [], []⟩

def Contents.destroy (contents : Contents κ δ) (dtor : Bool) (data : δ) : Contents κ δ :=
  if dtor then { contents with destroyed := contents.destroyed ++ [data] } else contents

def without (pairs : List (κ × δ)) (key : κ) : List (κ × δ) := pairs.filter (·.1 ≠ key)

def Contents.call (contents : Contents κ δ) (dtor : Bool) : Call κ δ → Contents κ δ × Reply κ δ
  | .add key data =>
    ({ contents with
      pairs := contents.pairs ++ [(key, data)]
      stored := contents.stored ++ [data] }, .done true)
  | .find key => (contents, .found (contents.pairs.lookup key))
  | .update key data =>
    match contents.pairs.lookup key with
    | none => (contents, .done false)
    | some old =>
      ({ contents.destroy dtor old with
        pairs := contents.pairs.map fun pair => if pair.1 = key then (key, data) else pair
        stored := contents.stored ++ [data] }, .done true)
  | .del key =>
    match contents.pairs.lookup key with
    | none => (contents, .done false)
    | some old =>
      ({ contents.destroy dtor old with pairs := without contents.pairs key }, .done true)
  | .move oldKey newKey =>
    match contents.pairs.lookup oldKey with
    | none => (contents, .done false)
    | some data =>
      ({ contents with pairs := without contents.pairs oldKey ++ [(newKey, data)] }, .done true)
  | .each => (contents, .pairs contents.pairs)
  | .count => (contents, .count contents.pairs.length)

def Contents.run (dtor : Bool) : Contents κ δ → List (Call κ δ) → Contents κ δ × List (Reply κ δ)
  | contents, [] => (contents, [])
  | contents, call :: calls =>
    let (contents, reply) := contents.call dtor call
    let (contents, replies) := run dtor contents calls
    (contents, reply :: replies)

def Call.Absent (contents : Contents κ δ) : Call κ δ → Prop
  | .add key _ => key ∉ contents.pairs.map Prod.fst
  | .move _ newKey => newKey ∉ contents.pairs.map Prod.fst
  | _ => True

def Call.keys : Call κ δ → List κ
  | .add key _ | .find key | .update key _ | .del key => [key]
  | .move oldKey newKey => [oldKey, newKey]
  | .each | .count => []

def Call.kept : Call κ δ → Option κ
  | .add key _ | .move _ key => some key
  | _ => none

def Call.sought : Call κ δ → Option κ
  | .find key | .update key _ | .del key | .move key _ => some key
  | _ => none

def Meets (dtor : Bool) (condition : Contents κ δ → Call κ δ → Prop) :
    Contents κ δ → List (Call κ δ) → Prop
  | _, [] => True
  | contents, call :: calls =>
    condition contents call ∧ Meets dtor condition (contents.call dtor call).1 calls

end

/-! ## The map and its contents -/

section

variable {κ δ : Type} {kind : Kind κ}

/-- When the bytes of a kind tell its keys apart: `usable` for those that are given and `keepable`
for those that are kept, up to `same`. -/
structure Kind.Tells (kind : Kind κ) (usable keepable : κ → Prop) (same : κ → κ → Prop) :
    Prop where
  read : ∀ key, usable key → keepable key → kind.read (kind.keyInt key) (kind.keyStr key) = key
  handle : ∀ key, usable key → keepable key →
    (kind.handle key).take (kind.keylen key) = (kind.given key).take (kind.keylen key)
  same : ∀ key key', usable key → usable key' → kind.keylen key = kind.keylen key' →
    (kind.given key).take (kind.keylen key) = (kind.given key').take (kind.keylen key') →
    same key key'

def Holds (kind : Kind κ) (nodes : Nat → Option (Node δ)) (id : Nat) (pair : κ × δ) : Prop :=
  nodes id = some (kind.node pair.1 pair.2)

structure Represents (kind : Kind κ) (hmap : HashMap δ) (pairs : List (κ × δ)) : Prop where
  filed : Filed hmap.hashv hmap.order hmap.table
  nodup : hmap.order.Nodup
  holds : List.Forall₂ (Holds kind hmap.nodes) hmap.order pairs
  fresh : ∀ id ∈ hmap.order, id < hmap.next
  iterator : hmap.iterator = none
  keys : (pairs.map Prod.fst).Nodup

variable {hmap : HashMap δ} {pairs : List (κ × δ)}

theorem represents_new (dtor : Bool) : Represents kind (.new dtor : HashMap δ) [] where
  filed := ⟨Nat.zero_lt_succ 31, ⟨fun _ _ => iff_of_false not_mem_nil
    (fun both => not_mem_nil both.1), fun _ => .nil⟩, rfl⟩
  nodup := .nil
  holds := .nil
  fresh := nofun
  iterator := rfl
  keys := .nil

theorem forall₂_split {α β : Type} {relation : α → β → Prop} {as : List α} {front back : List β}
    {b : β} (pairs : List.Forall₂ relation as (front ++ b :: back)) :
    ∃ before a behind, as = before ++ a :: behind ∧ List.Forall₂ relation before front ∧
      relation a b ∧ List.Forall₂ relation behind back := by
  induction front generalizing as with
  | nil =>
    cases pairs with
    | @cons a _ behind _ pair rest => exact ⟨[], a, behind, rfl, .nil, pair, rest⟩
  | cons first front ih =>
    cases pairs with
    | @cons a' _ _ _ pair rest =>
      obtain ⟨before, a, behind, rfl, inFront, here, inBack⟩ := ih rest
      exact ⟨a' :: before, a, behind, rfl, .cons pair inFront, here, inBack⟩

theorem forall₂_of_mem {α β : Type} {relation : α → β → Prop} {as : List α} {bs : List β}
    (pairs : List.Forall₂ relation as bs) {a : α} (mem : a ∈ as) : ∃ b ∈ bs, relation a b := by
  induction pairs with
  | nil => cases mem
  | @cons a' b _ _ pair _ ih =>
    rcases List.mem_cons.mp mem with rfl | later
    · exact ⟨b, .head _, pair⟩
    · obtain ⟨b', isMember, pair'⟩ := ih later
      exact ⟨b', .tail _ isMember, pair'⟩

theorem forall₂_inside {α β : Type} {relation : α → β → Prop} {as : List α} {bs : List β}
    (pairs : List.Forall₂ relation as bs) :
    List.Forall₂ (fun a b => a ∈ as ∧ relation a b) as bs := by
  induction pairs with
  | nil => exact .nil
  | cons pair _ ih =>
    exact .cons ⟨.head _, pair⟩
      (ih.imp fun _ _ rest => ⟨.tail _ rest.1, rest.2⟩)

structure At (kind : Kind κ) (hmap : HashMap δ) (pairs : List (κ × δ)) (key : κ) (data : δ)
    (id : Nat) (front back : List (κ × δ)) (before behind : List Nat) : Prop where
  pairs_eq : pairs = front ++ (key, data) :: back
  order_eq : hmap.order = before ++ id :: behind
  front : List.Forall₂ (Holds kind hmap.nodes) before front
  node : hmap.nodes id = some (kind.node key data)
  back : List.Forall₂ (Holds kind hmap.nodes) behind back

variable {usable keepable : κ → Prop} {same : κ → κ → Prop}

/-- **A key is found if it is there, and nothing is found for one that is absent.** -/
theorem Represents.found (represents : Represents kind hmap pairs)
    (tells : kind.Tells usable keepable same)
    (kept : ∀ pair ∈ pairs, usable pair.1 ∧ keepable pair.1) {key : κ} (isUsable : usable key)
    (apart : ∀ pair ∈ pairs, same pair.1 key → pair.1 = key) :
    (key ∉ pairs.map Prod.fst ∧ hmap.nodeFind kind key = none) ∨
      ∃ data id front back before behind, hmap.nodeFind kind key = some id ∧
        At kind hmap pairs key data id front back before behind := by
  -- what is found, in some part of the order, has the key
  have ofFound {id : Nat} (isFound : hmap.nodeFind kind key = some id) {ids : List Nat}
      {part : List (κ × δ)} (holds : List.Forall₂ (Holds kind hmap.nodes) ids part)
      (inside : ∀ pair ∈ part, pair ∈ pairs) (mem : id ∈ ids) : key ∈ part.map Prod.fst := by
    obtain ⟨⟨key', data⟩, isPair, holds⟩ := forall₂_of_mem holds mem
    have agrees := List.find?_some isFound
    rw [holds] at agrees
    obtain ⟨width, bytes⟩ := Bool.and_eq_true_iff.mp agrees
    have width : kind.keylen key' = kind.keylen key := eq_of_beq width
    have bytes : (kind.node key' data).key.take (kind.keylen key) = _ := eq_of_beq bytes
    obtain ⟨isUsable', isKeepable⟩ := kept _ (inside _ isPair)
    have handle := tells.handle key' isUsable' isKeepable
    rw [width] at handle
    have isKey : key' = key := by
      refine apart _ (inside _ isPair) (tells.same key' key isUsable' isUsable width ?_)
      rw [width, ← handle]
      exact bytes
    exact List.mem_map.mpr ⟨_, isPair, isKey⟩
  have inOrder {id : Nat} (isFound : hmap.nodeFind kind key = some id) : id ∈ hmap.order :=
    ((represents.filed.filled.mem _ id).mp (List.mem_of_find?_eq_some isFound)).1
  by_cases present : key ∈ pairs.map Prod.fst
  · obtain ⟨⟨key', data⟩, isPair, isKey⟩ := List.mem_map.mp present
    obtain rfl : key' = key := isKey
    obtain ⟨front, back, rfl⟩ := List.append_of_mem isPair
    obtain ⟨before, id, behind, order, inFront, node, inBack⟩ := forall₂_split represents.holds
    obtain ⟨isUsable', isKeepable⟩ := kept _ isPair
    have handle := tells.handle _ isUsable' isKeepable
    have mem : id ∈ hmap.order := by
      rw [order]
      exact List.mem_append_right _ (.head _)
    have hash : hmap.hashv id = kind.hash ((kind.given key').take (kind.keylen key')) := by
      rw [HashMap.hashv, node, ← handle]
      rfl
    have isSome : (hmap.nodeFind kind key').isSome := by
      rw [HashMap.nodeFind, List.find?_isSome]
      refine ⟨id, (represents.filed.filled.mem _ id).mpr ⟨mem, by rw [hash]⟩, ?_⟩
      rw [node]
      exact Bool.and_eq_true_iff.mpr ⟨beq_self_eq_true _, beq_iff_eq.mpr handle⟩
    obtain ⟨id', isFound⟩ := Option.isSome_iff_exists.mp isSome
    have keys := represents.keys
    rw [map_append, map_cons, nodup_middle, nodup_cons, mem_append,
      not_or] at keys
    have isId : id' = id := by
      have member' := inOrder isFound
      rw [order, mem_append, mem_cons] at member'
      rcases member' with early | same | late
      · exact absurd (ofFound isFound inFront (fun pair inPart => List.mem_append_left _ inPart)
          early) keys.1.1
      · exact same
      · exact absurd (ofFound isFound inBack (fun pair inPart =>
          List.mem_append_right _ (.tail _ inPart)) late) keys.1.2
    subst isId
    exact .inr ⟨data, id', front, back, before, behind, isFound, rfl, order, inFront, node, inBack⟩
  · refine .inl ⟨present, ?_⟩
    cases isFound : hmap.nodeFind kind key with
    | none => rfl
    | some id =>
      exact absurd (ofFound isFound represents.holds (fun _ inPart => inPart) (inOrder isFound))
        present

theorem Represents.congr (represents : Represents kind hmap pairs) {hmap' : HashMap δ}
    (table : hmap'.table = hmap.table) (order : hmap'.order = hmap.order)
    (iterator : hmap'.iterator = none) (next : hmap.next ≤ hmap'.next)
    (nodes : ∀ id ∈ hmap.order, hmap'.nodes id = hmap.nodes id) : Represents kind hmap' pairs where
  filed := by
    rw [table, order]
    refine represents.filed.congr fun id mem => ?_
    rw [HashMap.hashv, HashMap.hashv, nodes id mem]
  nodup := order ▸ represents.nodup
  holds := by
    rw [order]
    refine (forall₂_inside represents.holds).imp fun id pair both => ?_
    exact (nodes id both.1).trans both.2
  fresh id mem := Nat.lt_of_lt_of_le (represents.fresh id (order ▸ mem)) next
  iterator := iterator
  keys := represents.keys

theorem Represents.nodeAdd (represents : Represents kind hmap pairs) {id : Nat}
    (away : id ∉ hmap.order) (low : id < hmap.next) {key : κ}
    (absent : key ∉ pairs.map Prod.fst) (data : δ) :
    Represents kind (hmap.nodeAdd id (kind.node key data)) (pairs ++ [(key, data)]) := by
  have ne {other : Nat} (mem : other ∈ hmap.order) : other ≠ id := by
    rintro rfl
    exact away mem
  have nodes {other : Nat} (mem : other ∈ hmap.order) :
      Function.update hmap.nodes id (some (kind.node key data)) other = hmap.nodes other :=
    Function.update_of_ne (ne mem) _ _
  refine ⟨?_, ?_, ?_, ?_, represents.iterator, ?_⟩
  · refine Filed.add (represents.filed.congr fun other mem => ?_) away
    change ((Function.update hmap.nodes id (some (kind.node key data)) other).map _).getD 0 = _
    rw [nodes mem]
    rfl
  · exact List.nodup_append.mpr ⟨represents.nodup, List.nodup_singleton id,
      fun other mem last isLast => List.mem_singleton.mp isLast ▸ ne mem⟩
  · refine List.rel_append ?_ (.cons (Function.update_self _ _ _) .nil)
    exact (forall₂_inside represents.holds).imp fun other pair both =>
      (nodes both.1).trans both.2
  · intro other mem
    rcases List.mem_append.mp mem with earlier | last
    · exact represents.fresh other earlier
    · exact List.mem_singleton.mp last ▸ low
  · rw [map_append, map_singleton]
    refine List.nodup_append.mpr ⟨represents.keys, List.nodup_singleton key,
      fun other mem last isLast same => absent ?_⟩
    rwa [same, List.mem_singleton.mp isLast] at mem

section

variable {key : κ} {data : δ} {id : Nat} {front back : List (κ × δ)} {before behind : List Nat}

theorem At.member (at_ : At kind hmap pairs key data id front back before behind) :
    id ∈ hmap.order := by
  rw [at_.order_eq]
  exact List.mem_append_right _ (.head _)

theorem At.absent (represents : Represents kind hmap pairs)
    (at_ : At kind hmap pairs key data id front back before behind) :
    key ∉ front.map Prod.fst ∧ key ∉ back.map Prod.fst ∧ ((front ++ back).map Prod.fst).Nodup := by
  have keys := represents.keys
  rw [at_.pairs_eq, map_append, map_cons, nodup_middle, nodup_cons,
    mem_append, not_or] at keys
  rw [map_append]
  exact ⟨keys.1.1, keys.1.2, keys.2⟩

theorem At.erased (represents : Represents kind hmap pairs)
    (at_ : At kind hmap pairs key data id front back before behind) :
    hmap.order.erase id = before ++ behind ∧ id ∉ before ++ behind := by
  have nodup := represents.nodup
  rw [at_.order_eq, nodup_middle, nodup_cons] at nodup
  refine ⟨?_, nodup.1⟩
  rw [at_.order_eq, List.erase_append_right _ fun early =>
    nodup.1 (List.mem_append_left _ early), List.erase_cons_head]

theorem Represents.nodeDelete (represents : Represents kind hmap pairs)
    (at_ : At kind hmap pairs key data id front back before behind) :
    Represents kind (hmap.nodeDelete id) (front ++ back) where
  filed := represents.filed.del represents.nodup at_.member
  nodup := represents.nodup.erase id
  holds := by
    change List.Forall₂ _ (hmap.order.erase id) _
    rw [(at_.erased represents).1]
    exact List.rel_append at_.front at_.back
  fresh other member := represents.fresh other (List.mem_of_mem_erase member)
  iterator := represents.iterator
  keys := (at_.absent represents).2.2

theorem Represents.setData (represents : Represents kind hmap pairs)
    (at_ : At kind hmap pairs key data id front back before behind) (data' : δ) :
    Represents kind { hmap with
      nodes := Function.update hmap.nodes id (some { kind.node key data with data := data' }) }
      (front ++ (key, data') :: back) := by
  have away := (at_.erased represents).2
  rw [mem_append, not_or] at away
  have others {ids : List Nat} {part : List (κ × δ)} (absent : id ∉ ids)
      (holds : List.Forall₂ (Holds kind hmap.nodes) ids part) :
      List.Forall₂ (Holds kind (Function.update hmap.nodes id
        (some { kind.node key data with data := data' }))) ids part := by
    refine (forall₂_inside holds).imp fun other pair both => ?_
    refine (Function.update_of_ne ?_ _ _).trans both.2
    rintro rfl
    exact absent both.1
  refine ⟨?_, represents.nodup, ?_, represents.fresh, represents.iterator, ?_⟩
  · refine represents.filed.congr fun other _ => ?_
    change ((Function.update hmap.nodes id _ other).map _).getD 0 =
      ((hmap.nodes other).map _).getD 0
    by_cases isId : other = id
    · rw [isId, Function.update_self, at_.node]
      rfl
    · rw [Function.update_of_ne isId]
  · change List.Forall₂ _ hmap.order _
    rw [at_.order_eq]
    exact List.rel_append (others away.1 at_.front)
      (.cons (Function.update_self _ _ _) (others away.2 at_.back))
  · have keys := represents.keys
    rw [at_.pairs_eq, map_append, map_cons] at keys
    rw [map_append, map_cons]
    exact keys

end

section

theorem after_append {before behind : List Nat} {id : Nat} (absent : id ∉ before) :
    after (before ++ id :: behind) id = behind.head? := by
  have skipped : (before ++ id :: behind).dropWhile (· ≠ id) = id :: behind := by
    rw [List.dropWhile_append_of_pos]
    · exact List.dropWhile_cons_of_neg (by simp)
    · intro other mem
      refine decide_eq_true ?_
      rintro rfl
      exact absent mem
  rw [after, skipped, List.tail_cons]

theorem Represents.nodeEach (represents : Represents kind hmap pairs) {before behind : List Nat}
    (order : hmap.order = before ++ behind) :
    HashMap.nodeEach { hmap with iterator := before.getLast? } =
      (behind.head?, { hmap with iterator := behind.head? }) := by
  have nodup := represents.nodup
  rw [order] at nodup
  have items := represents.filed.numItems
  rw [order, List.length_append] at items
  rw [HashMap.nodeEach]
  by_cases noItems : hmap.table.numItems = 0
  · obtain ⟨noneBefore, noneBehind⟩ := Nat.add_eq_zero_iff.mp (items.symm.trans noItems)
    rw [if_pos noItems, List.length_eq_zero_iff.mp noneBefore,
      List.length_eq_zero_iff.mp noneBehind]
    rfl
  · have next : (match before.getLast? with
        | none => hmap.order.head?
        | some iterator => after hmap.order iterator) = behind.head? := by
      rw [order]
      cases isLast : before.getLast? with
      | none =>
        obtain rfl := List.getLast?_eq_none_iff.mp isLast
        rfl
      | some iterator =>
        obtain ⟨front, rfl⟩ := List.getLast?_eq_some_iff.mp isLast
        rw [List.append_assoc, List.singleton_append] at nodup ⊢
        rw [nodup_middle, nodup_cons] at nodup
        exact after_append fun mem => nodup.1 (List.mem_append_left _ mem)
    rw [if_neg noItems]
    change (match before.getLast? with
      | none => hmap.order.head?
      | some iterator => after hmap.order iterator, _) = _
    simp only [next]

theorem Represents.eachLoop (represents : Represents kind hmap pairs)
    (tells : kind.Tells usable keepable same)
    (kept : ∀ pair ∈ pairs, usable pair.1 ∧ keepable pair.1) {before behind : List Nat}
    (order : hmap.order = before ++ behind) {rest : List (κ × δ)}
    (inside : ∀ pair ∈ rest, pair ∈ pairs)
    (holds : List.Forall₂ (Holds kind hmap.nodes) behind rest) :
    HashMap.eachLoop kind (behind.length + 1) { hmap with iterator := before.getLast? } =
      (rest, { hmap with iterator := none }) := by
  induction holds generalizing before with
  | nil =>
    rw [HashMap.eachLoop, represents.nodeEach order]
    rfl
  | @cons id pair behind rest here _ ih =>
    have isKept := kept pair (inside pair (.head _))
    have later := @ih (before ++ [id]) (by rw [order, List.append_assoc, List.singleton_append])
      fun other mem => inside other (.tail _ mem)
    rw [List.getLast?_concat] at later
    rw [HashMap.eachLoop, represents.nodeEach order]
    change (match hmap.nodes id with | none => _ | some node => _) = _
    rw [here]
    simp only [List.head?_cons, length_cons, later]
    have read : kind.read (kind.node pair.1 pair.2).keyInt (kind.node pair.1 pair.2).keyStr =
        pair.1 := tells.read pair.1 isKept.1 isKept.2
    rw [read]
    rfl

theorem Represents.each (represents : Represents kind hmap pairs)
    (tells : kind.Tells usable keepable same)
    (kept : ∀ pair ∈ pairs, usable pair.1 ∧ keepable pair.1) : hmap.each kind = (pairs, hmap) := by
  have back : { hmap with iterator := none } = hmap := by
    have iterator := represents.iterator
    obtain ⟨_, _, _, _, _, _, _⟩ := hmap
    obtain rfl := iterator
    rfl
  have order : hmap.order = [] ++ hmap.order := (List.nil_append _).symm
  have all := represents.eachLoop tells kept order (fun _ mem => mem) represents.holds
  rw [List.getLast?_nil, back] at all
  exact all

end

end

section

variable {κ δ : Type} [DecidableEq κ] {kind : Kind κ} {usable keepable : κ → Prop}
  {same : κ → κ → Prop} {hmap : HashMap δ} {contents : Contents κ δ} {dtor : Bool}

structure Models (kind : Kind κ) (usable keepable : κ → Prop) (dtor : Bool) (hmap : HashMap δ)
    (contents : Contents κ δ) : Prop where
  represents : Represents kind hmap contents.pairs
  kept : ∀ pair ∈ contents.pairs, usable pair.1 ∧ keepable pair.1
  dtor : hmap.dtor = dtor
  destroyed : hmap.destroyed = contents.destroyed

/-- The keys of a call are usable, the one that it keeps is keepable and absent, and the one that
it looks for is not taken for another one that is there. -/
structure Regular (usable keepable : κ → Prop) (same : κ → κ → Prop) (contents : Contents κ δ)
    (call : Call κ δ) : Prop where
  absent : call.Absent contents
  usable : ∀ key ∈ call.keys, usable key
  keepable : ∀ key, call.kept = some key → keepable key
  apart : ∀ key, call.sought = some key →
    ∀ pair ∈ contents.pairs, same pair.1 key → pair.1 = key

theorem lookup_absent {pairs : List (κ × δ)} {key : κ} (absent : key ∉ pairs.map Prod.fst) :
    pairs.lookup key = none := by
  rw [List.lookup_eq_none_iff]
  intro pair mem
  rw [bne_iff_ne]
  rintro rfl
  exact absent (List.mem_map_of_mem mem)

theorem filter_absent {pairs : List (κ × δ)} {key : κ} (absent : key ∉ pairs.map Prod.fst) :
    without pairs key = pairs := by
  refine List.filter_eq_self.mpr fun pair mem => decide_eq_true ?_
  rintro rfl
  exact absent (List.mem_map_of_mem mem)

theorem map_absent {pairs : List (κ × δ)} {key : κ} (absent : key ∉ pairs.map Prod.fst)
    (data : δ) : pairs.map (fun pair => if pair.1 = key then (key, data) else pair) = pairs := by
  refine (List.map_congr_left fun pair mem => if_neg ?_).trans (List.map_id _)
  rintro rfl
  exact absent (List.mem_map_of_mem mem)

theorem without_split {front back : List (κ × δ)} {key : κ} (data : δ)
    (notFront : key ∉ front.map Prod.fst) (notBack : key ∉ back.map Prod.fst) :
    without (front ++ (key, data) :: back) key = front ++ back := by
  rw [without, List.filter_append, List.filter_cons_of_neg (by simp)]
  exact congrArg₂ _ (filter_absent notFront) (filter_absent notBack)

theorem map_split {front back : List (κ × δ)} {key : κ} (data data' : δ)
    (notFront : key ∉ front.map Prod.fst) (notBack : key ∉ back.map Prod.fst) :
    (front ++ (key, data) :: back).map (fun pair => if pair.1 = key then (key, data') else pair) =
      front ++ (key, data') :: back := by
  rw [map_append, map_cons, if_pos rfl, map_absent notFront, map_absent notBack]

section

variable {key : κ} {data : δ} {id : Nat} {front back : List (κ × δ)} {before behind : List Nat}

theorem At.lookup (represents : Represents kind hmap contents.pairs)
    (at_ : At kind hmap contents.pairs key data id front back before behind) :
    contents.pairs.lookup key = some data := by
  rw [at_.pairs_eq, List.lookup_append, lookup_absent (at_.absent represents).1, Option.none_or,
    List.lookup_cons_self]

theorem At.without (represents : Represents kind hmap contents.pairs)
    (at_ : At kind hmap contents.pairs key data id front back before behind) :
    SwHashMap.without contents.pairs key = front ++ back := by
  obtain ⟨notFront, notBack, -⟩ := at_.absent represents
  rw [at_.pairs_eq]
  exact without_split data notFront notBack

theorem At.map (represents : Represents kind hmap contents.pairs)
    (at_ : At kind hmap contents.pairs key data id front back before behind) (data' : δ) :
    contents.pairs.map (fun pair => if pair.1 = key then (key, data') else pair) =
      front ++ (key, data') :: back := by
  obtain ⟨notFront, notBack, -⟩ := at_.absent represents
  rw [at_.pairs_eq]
  exact map_split data data' notFront notBack

end

theorem nodeDtor_eq (hmap : HashMap δ) (node : Node δ) : hmap.nodeDtor node = { hmap with
    destroyed := hmap.destroyed ++ if hmap.dtor then [node.data] else [] } := by
  rw [HashMap.nodeDtor]
  split
  · rfl
  · rw [List.append_nil]

omit [DecidableEq κ] in
theorem destroy_eq (contents : Contents κ δ) (dtor : Bool) (data : δ) :
    contents.destroy dtor data = { contents with
      destroyed := contents.destroyed ++ if dtor then [data] else [] } := by
  rw [Contents.destroy]
  split
  · rfl
  · rw [List.append_nil]

theorem Models.call (models : Models kind usable keepable dtor hmap contents)
    (tells : kind.Tells usable keepable same) (call : Call κ δ)
    (regular : Regular usable keepable same contents call) :
    (hmap.call kind call).2 = (contents.call dtor call).2 ∧
      Models kind usable keepable dtor (hmap.call kind call).1 (contents.call dtor call).1 := by
  obtain ⟨represents, kept, hasDtor, destroyed⟩ := models
  have found {key : κ} (isSought : call.sought = some key) (isKey : key ∈ call.keys) :=
    represents.found tells kept (regular.usable key isKey) (regular.apart key isSought)
  cases call with
  | add key data =>
    have isKept : usable key ∧ keepable key :=
      ⟨regular.usable key (.head _), regular.keepable key rfl⟩
    have grown : Represents kind { hmap with next := hmap.next + 1 } contents.pairs :=
      represents.congr rfl rfl represents.iterator (Nat.le_succ _) fun _ _ => rfl
    refine ⟨rfl, grown.nodeAdd (fun member => ?_) (Nat.lt_succ_self _) regular.absent data, ?_,
      hasDtor, destroyed⟩
    · exact Nat.lt_irrefl _ (represents.fresh _ member)
    · exact List.forall_mem_append.mpr ⟨kept, List.forall_mem_singleton.mpr isKept⟩
  | find key =>
    refine ⟨congrArg Reply.found ?_, represents, kept, hasDtor, destroyed⟩
    rw [HashMap.find]
    rcases found rfl (.head _) with
      ⟨absent, missing⟩ | ⟨data, id, front, back, before, behind, isFound, at_⟩
    · rw [missing, lookup_absent absent]
      rfl
    · rw [isFound, at_.lookup represents]
      change (hmap.nodes id).bind _ = _
      rw [at_.node]
      rfl
  | update key data' =>
    change Reply.done (hmap.update kind key data').2 = _ ∧
      Models _ _ _ _ (hmap.update kind key data').1 _
    rw [HashMap.update, Contents.call]
    rcases found rfl (.head _) with
      ⟨absent, missing⟩ | ⟨data, id, front, back, before, behind, isFound, at_⟩
    · rw [missing, lookup_absent absent]
      exact ⟨rfl, represents, kept, hasDtor, destroyed⟩
    · simp only [isFound, at_.node, at_.lookup represents, nodeDtor_eq, destroy_eq,
        at_.map represents]
      refine ⟨trivial, ?_, ?_, hasDtor, ?_⟩
      · exact (represents.setData at_ data').congr rfl rfl represents.iterator (Nat.le_refl _)
          fun _ _ => rfl
      · rw [at_.pairs_eq] at kept
        rw [List.forall_mem_append, List.forall_mem_cons] at kept ⊢
        exact kept
      · rw [destroyed, hasDtor]
        rfl
  | del key =>
    change Reply.done (hmap.del kind key).2 = _ ∧ Models _ _ _ _ (hmap.del kind key).1 _
    rw [HashMap.del, Contents.call]
    rcases found rfl (.head _) with
      ⟨absent, missing⟩ | ⟨data, id, front, back, before, behind, isFound, at_⟩
    · rw [missing, lookup_absent absent]
      exact ⟨rfl, represents, kept, hasDtor, destroyed⟩
    · simp only [isFound, at_.node, at_.lookup represents, nodeDtor_eq, destroy_eq,
        at_.without represents]
      have deleted := represents.nodeDelete at_
      refine ⟨trivial, ?_, ?_, hasDtor, ?_⟩
      · refine deleted.congr rfl rfl represents.iterator (Nat.le_refl _) fun other member => ?_
        -- the node that is freed is not in the order
        refine Function.update_of_ne ?_ _ _
        rintro rfl
        exact represents.nodup.not_mem_erase member
      · rw [at_.pairs_eq, List.forall_mem_append, List.forall_mem_cons] at kept
        exact List.forall_mem_append.mpr ⟨kept.1, kept.2.2⟩
      · rw [HashMap.nodeDelete, destroyed, hasDtor]
        rfl
  | move oldKey newKey =>
    change Reply.done (hmap.move kind oldKey newKey).2 = _ ∧
      Models _ _ _ _ (hmap.move kind oldKey newKey).1 _
    rw [HashMap.move, Contents.call]
    rcases found rfl (.head _) with
      ⟨absent, missing⟩ | ⟨data, id, front, back, before, behind, isFound, at_⟩
    · rw [missing, lookup_absent absent]
      exact ⟨rfl, represents, kept, hasDtor, destroyed⟩
    · simp only [isFound, at_.node, at_.lookup represents, at_.without represents]
      have deleted := represents.nodeDelete at_
      have isNew : newKey ∉ (front ++ back).map Prod.fst := fun member => by
        have absent := regular.absent
        rw [Call.Absent, at_.pairs_eq] at absent
        rw [map_append, mem_append] at member absent
        exact absent (member.imp_right (List.mem_cons_of_mem _))
      have isKept : usable newKey ∧ keepable newKey :=
        ⟨regular.usable newKey (.tail _ (.head _)),
          regular.keepable newKey rfl⟩
      refine ⟨trivial, ?_, ?_, hasDtor, destroyed⟩
      · exact deleted.nodeAdd represents.nodup.not_mem_erase (represents.fresh id at_.member)
          isNew data
      · rw [at_.pairs_eq, List.forall_mem_append, List.forall_mem_cons] at kept
        exact List.forall_mem_append.mpr ⟨List.forall_mem_append.mpr ⟨kept.1, kept.2.2⟩,
          List.forall_mem_singleton.mpr isKept⟩
  | each =>
    have all := represents.each tells kept
    refine ⟨congrArg Reply.pairs (congrArg Prod.fst all), ?_⟩
    change Models _ _ _ _ (hmap.each kind).2 _
    rw [all]
    exact ⟨represents, kept, hasDtor, destroyed⟩
  | count =>
    refine ⟨congrArg Reply.count ?_, represents, kept, hasDtor, destroyed⟩
    rw [HashMap.count, represents.filed.numItems, represents.holds.length_eq]

theorem Models.run (tells : kind.Tells usable keepable same) (calls : List (Call κ δ))
    (models : Models kind usable keepable dtor hmap contents)
    (regular : Meets dtor (Regular usable keepable same) contents calls) :
    (hmap.run kind calls).2 = (contents.run dtor calls).2 ∧
      Models kind usable keepable dtor (hmap.run kind calls).1 (contents.run dtor calls).1 := by
  induction calls generalizing hmap contents with
  | nil => exact ⟨rfl, models⟩
  | cons call calls ih =>
    obtain ⟨replies, models⟩ := models.call tells call regular.1
    obtain ⟨later, last⟩ := ih models regular.2
    exact ⟨congrArg₂ List.cons replies later, last⟩

variable [DecidableEq δ]

structure Accounted (contents : Contents κ δ) : Prop where
  keys : (contents.pairs.map Prod.fst).Nodup
  count : ∀ data, contents.destroyed.count data + (contents.pairs.map Prod.snd).count data ≤
    contents.stored.count data

omit [DecidableEq δ] in
theorem lookup_split {pairs : List (κ × δ)} (nodup : (pairs.map Prod.fst).Nodup) {key : κ}
    {data : δ} (found : pairs.lookup key = some data) :
    ∃ front back, pairs = front ++ (key, data) :: back ∧ key ∉ front.map Prod.fst ∧
      key ∉ back.map Prod.fst ∧ ((front ++ back).map Prod.fst).Nodup := by
  obtain ⟨front, back, rfl, notFront⟩ := List.lookup_eq_some_iff.mp found
  rw [map_append, map_cons, nodup_middle, nodup_cons, mem_append,
    not_or] at nodup
  exact ⟨front, back, rfl, nodup.1.1, nodup.1.2, by rw [map_append]; exact nodup.2⟩

theorem Accounted.call (accounted : Accounted contents) (dtor : Bool) (call : Call κ δ)
    (absent : call.Absent contents) : Accounted (contents.call dtor call).1 := by
  obtain ⟨keys, count⟩ := accounted
  cases call with
  | add key data =>
    refine ⟨?_, fun other => ?_⟩
    · rw [Contents.call, map_append, map_singleton]
      refine List.nodup_append.mpr ⟨keys, List.nodup_singleton key,
        fun other mem last isLast same => absent ?_⟩
      rwa [same, List.mem_singleton.mp isLast] at mem
    · have before := count other
      simp only [Contents.call, map_append, map_singleton, count_append]
      omega
  | find key => exact ⟨keys, count⟩
  | update key data =>
    rw [Contents.call]
    cases found : contents.pairs.lookup key with
    | none => exact ⟨keys, count⟩
    | some old =>
      obtain ⟨front, back, isPairs, notFront, notBack, -⟩ := lookup_split keys found
      have replaced := isPairs ▸ map_split old data notFront notBack
      refine ⟨?_, fun other => ?_⟩
      · simp only [replaced]
        rw [isPairs] at keys
        simpa only [map_append, map_cons] using keys
      · have before := count other
        simp only [isPairs, map_append, map_cons, count_append,
          count_cons] at before
        simp only [replaced, destroy_eq, map_append, map_cons, count_append,
          count_cons, count_nil]
        split <;> simp only [count_cons, count_nil] <;> omega
  | del key =>
    rw [Contents.call]
    cases found : contents.pairs.lookup key with
    | none => exact ⟨keys, count⟩
    | some old =>
      obtain ⟨front, back, isPairs, notFront, notBack, nodup⟩ := lookup_split keys found
      have removed := without_split old notFront notBack
      refine ⟨?_, fun other => ?_⟩
      · simp only [isPairs, removed]
        exact nodup
      · have before := count other
        simp only [isPairs, map_append, map_cons, count_append,
          count_cons] at before
        simp only [isPairs, removed, destroy_eq, map_append, count_append]
        split <;> simp only [count_cons, count_nil] <;> omega
  | move oldKey newKey =>
    rw [Contents.call]
    cases found : contents.pairs.lookup oldKey with
    | none => exact ⟨keys, count⟩
    | some data =>
      obtain ⟨front, back, isPairs, notFront, notBack, nodup⟩ := lookup_split keys found
      have removed := without_split data notFront notBack
      rw [Call.Absent, isPairs, map_append, map_cons, mem_append,
        mem_cons, not_or, not_or] at absent
      refine ⟨?_, fun other => ?_⟩
      · simp only [isPairs, removed]
        rw [map_append, map_singleton]
        refine List.nodup_append.mpr ⟨nodup, List.nodup_singleton newKey,
          fun other mem last isLast same => ?_⟩
        rw [same, List.mem_singleton.mp isLast, map_append, mem_append] at mem
        exact mem.elim absent.1 absent.2.2
      · have before := count other
        simp only [isPairs, map_append, map_cons, count_append,
          count_cons] at before
        simp only [isPairs, removed, map_append, map_cons, List.map_nil,
          count_append, count_cons, count_nil]
        omega
  | each => exact ⟨keys, count⟩
  | count => exact ⟨keys, count⟩

theorem Accounted.run (calls : List (Call κ δ)) (accounted : Accounted contents)
    (regular : Meets dtor (Regular usable keepable same) contents calls) :
    Accounted (contents.run dtor calls).1 := by
  induction calls generalizing contents with
  | nil => exact accounted
  | cons call calls ih => exact ih (accounted.call dtor call regular.1.absent) regular.2

/-- A run on a new map: it returns what a finite map returns, has its keys and data at the end,
each key with a node of its own, and has destroyed no datum more often than it was stored. -/
structure IsMap (kind : Kind κ) (usable keepable : κ → Prop) (dtor : Bool)
    (calls : List (Call κ δ)) : Prop where
  replies : ((HashMap.new dtor).run kind calls).2 = (Contents.empty.run dtor calls).2
  models : Models kind usable keepable dtor ((HashMap.new dtor).run kind calls).1
    (Contents.empty.run dtor calls).1
  once : ∀ data, ((HashMap.new dtor).run kind calls).1.destroyed.count data ≤
    (Contents.empty.run dtor calls).1.stored.count data

theorem isMap_of_regular (tells : kind.Tells usable keepable same) (calls : List (Call κ δ))
    (regular : Meets dtor (Regular usable keepable same) .empty calls) :
    IsMap kind usable keepable dtor calls := by
  have start : Models kind usable keepable dtor (.new dtor) (.empty : Contents κ δ) :=
    ⟨represents_new dtor, nofun, rfl, rfl⟩
  have empty : Accounted (.empty : Contents κ δ) := ⟨.nil, fun _ => Nat.le_refl 0⟩
  obtain ⟨replies, models⟩ := start.run tells calls regular
  refine ⟨replies, models, fun data => ?_⟩
  rw [models.destroyed]
  exact Nat.le_trans (Nat.le_add_right _ _) ((empty.run calls regular).count data)

end

/-! ## Strings and integers -/

/-- A length fits in a `uint16_t`. -/
def Short (key : Bytes) : Prop := key.length < 2 ^ 16

def ZeroLast (key : Bytes) : Prop := ∀ i, i + 1 < key.length → key[i]? ≠ some 0

def SameHalf (key key' : UInt64) : Prop := key.toNat % 2 ^ 32 = key'.toNat % 2 ^ 32

theorem take_copy {key : Bytes} (zeroLast : ZeroLast key) (rest : Bytes) :
    (key.takeWhile (· ≠ 0) ++ 0 :: rest).take key.length = key := by
  induction key with
  | nil => rfl
  | cons byte key ih =>
    by_cases zero : byte = 0
    · subst zero
      have last : key = [] := by
        rw [← List.length_eq_zero_iff]
        by_contra more
        exact zeroLast 0 (by rw [length_cons]; omega) rfl
      rw [last]
      rfl
    · rw [List.takeWhile_cons_of_pos (by simpa using zero), List.cons_append, length_cons,
        List.take_succ_cons, ih fun i bound => zeroLast (i + 1) (by rw [length_cons]; omega)]

theorem take_strndup (behind : Bytes → Bytes) {key : Bytes} (short : Short key)
    (zeroLast : ZeroLast key) :
    (strndup behind (key.take (key.length % 2 ^ 16))).take (key.length % 2 ^ 16) = key := by
  rw [Nat.mod_eq_of_lt short, take_length, strndup, take_copy zeroLast]

theorem stringKind_tells (hash : Bytes → Nat) (behind : Bytes → Bytes) :
    (stringKind hash behind).Tells Short ZeroLast (· = ·) where
  read _ short zeroLast := take_strndup behind short zeroLast
  handle key short zeroLast := by
    refine (take_strndup behind short zeroLast).trans ?_
    change key = key.take (key.length % 2 ^ 16)
    rw [Nat.mod_eq_of_lt short, take_length]
  same key key' short short' _ bytes := by
    change key.take (key.length % 2 ^ 16) = key'.take (key'.length % 2 ^ 16) at bytes
    rwa [Nat.mod_eq_of_lt short, Nat.mod_eq_of_lt short', take_length, take_length]
      at bytes

theorem leNat_take (n : Nat) : leNat ((leBytes 8 n).take 4) = n % 2 ^ 32 := by
  simp only [leBytes, List.take_succ_cons, List.take_zero, leNat, UInt8.toNat_ofNat']
  omega

theorem intKind_tells (hash : Bytes → Nat) :
    (intKind hash).Tells (fun _ => True) (fun _ => True) SameHalf where
  read key _ _ := UInt64.ofNat_toNat
  handle _ _ _ := rfl
  same key key' _ _ _ bytes := by
    have numbers := congrArg leNat bytes
    exact (leNat_take key.toNat).symm.trans (numbers.trans (leNat_take key'.toNat))

section

variable {δ : Type} [DecidableEq δ] (hash : Bytes → Nat) (behind : Bytes → Bytes) (dtor : Bool)

/-- **A hash map is a finite map, with strings if no string that is kept has a zero byte before its
last byte, and with integers if none is looked for while a different one with the same lower half
is there.** -/
theorem isMap_of_kind : (∀ calls : List (Call Bytes δ),
      Meets dtor (Regular Short ZeroLast (· = ·)) .empty calls →
        IsMap (stringKind hash behind) Short ZeroLast dtor calls) ∧ ∀ calls : List (Call UInt64 δ),
        Meets dtor (Regular (fun _ => True) (fun _ => True) SameHalf) .empty calls →
          IsMap (intKind hash) (fun _ => True) (fun _ => True) dtor calls :=
  ⟨isMap_of_regular (stringKind_tells hash behind), isMap_of_regular (intKind_tells hash)⟩

end

theorem isMap_of_kind_added : IsMap (stringKind List.length fun _ => []) Short ZeroLast true
        [.add [97, 0] 7, .find [97, 0]] ∧
      IsMap (intKind List.length) (fun _ => True) (fun _ => True) true
        [.add 1 7, .update (2 ^ 31) 8] := by
  have kinds := @isMap_of_kind Nat _ List.length (fun _ => []) true
  refine ⟨kinds.1 _ ⟨⟨not_mem_nil, ?_, ?_, nofun⟩, ⟨trivial, ?_, nofun, ?_⟩, trivial⟩,
    kinds.2 _ ⟨⟨not_mem_nil, fun _ _ => trivial, fun _ _ => trivial, nofun⟩,
      ⟨trivial, fun _ _ => trivial, nofun, ?_⟩, trivial⟩⟩
  · simp [Call.keys, Short]
  · intro key isKept i bound
    cases isKept
    obtain rfl : i = 0 := by
      change i + 1 < 2 at bound
      omega
    decide
  · simp [Call.keys, Short]
  · exact fun _ _ _ _ same => same
  · intro key isSought pair member same
    cases isSought
    rw [List.mem_singleton.mp member] at same
    exact absurd same (by unfold SameHalf; decide)

/-- Each call keeps keys that are absent, and strings are short: nothing is said of zero bytes and
of lower halves. -/
theorem not_isMap : (¬ ∀ calls : List (Call Bytes Nat),
      Meets false (fun contents call => call.Absent contents ∧ ∀ key ∈ call.keys, Short key) .empty
        calls → ((HashMap.new false).run (stringKind List.length fun _ => []) calls).2 =
          (Contents.empty.run false calls).2) ∧ ¬ ∀ calls : List (Call UInt64 Nat),
      Meets false (fun contents call => call.Absent contents) .empty calls →
        ((HashMap.new false).run (intKind List.length) calls).2 =
          (Contents.empty.run false calls).2 := by
  constructor
  · intro isMap
    have replies := isMap [.add [97, 0, 98] 7, .find [97, 0, 98]] (by
      refine ⟨⟨not_mem_nil, ?_⟩, ⟨trivial, ?_⟩, trivial⟩
      all_goals
        intro key member
        rw [List.mem_singleton.mp member, Short]
        decide)
    cases replies
  · intro isMap
    have replies := isMap [.add 1 7, .find (2 ^ 32 + 1)] ⟨not_mem_nil, trivial, trivial⟩
    cases replies

end PhpExts.Swoole.SwHashMap
