import Mathlib

/-!
# Copying values into the cache and out of it

A value is a graph of zvals: an array's buckets point to the zvals of its elements,
and several buckets may point to one zval, also on a cycle through a PHP reference.
`my_copy_zval` copies such a graph depth first.  While an array is copied the table
`copied` maps every zval met so far to its copy, which is entered before the elements
are copied; a zval met again is not copied but counted, and marked as a reference if
the original is one.

The hash tables are rebuilt bucket by bucket: the list order stays, the chains are
linked anew, and the internal pointer is reset.  Memory is given out in order and
never reused, and it does not run out; no serializer is set, and there are no
objects.
-/

namespace PhpExts.Apcu.Copy

/-! ## Zvals and hash tables -/

abbrev Addr := Nat

/-- A bucket: its hash or index, its key if it is a string, and the zval that `pData`
leads to. -/
structure Bucket where
  h : Nat
  key : Option (List UInt8)
  data : Addr
  deriving DecidableEq

/-- A `HashTable`: the buckets from `pListHead` on; the chain at each index of
`arBuckets`, as places in that list; and the place of `pInternalPointer`. -/
structure Table where
  nTableSize : Nat
  nNextFreeElement : Nat
  list : List Bucket
  arBuckets : Nat → List Nat
  pInternalPointer : Option Nat

inductive Scalar where
  | null
  | bool (b : Bool)
  | long (l : Int)
  | double (bits : Nat)
  | resource (id : Nat)
  deriving DecidableEq

inductive Value where
  | scalar (scalar : Scalar)
  | string (bytes : List UInt8)
  | array (table : Table)

structure Zval where
  value : Value
  refcount : Nat
  isRef : Bool

/-- `Z_TYPE_P(z) == IS_ARRAY`. -/
def Value.isArray : Value → Bool
  | .array _ => true
  | _ => false

def Value.elements : Value → List Addr
  | .array table => table.list.map Bucket.data
  | _ => []

structure Heap where
  cells : Addr → Option Zval
  next : Addr

/-- `APC_COPY_IN` and `APC_COPY_OUT`. -/
inductive Mode where
  | copyIn
  | copyOut
  deriving DecidableEq

/-- `apc_context_t`: `copied`, and whether it is in use (`copied.nTableSize`). -/
structure Context where
  heap : Heap
  copied : List (Addr × Addr)
  recursive : Bool

def Context.write (ctxt : Context) (addr : Addr) (zval : Option Zval) : Context :=
  { ctxt with heap := { ctxt.heap with cells := Function.update ctxt.heap.cells addr zval } }

/-- `palloc` or `ALLOC_ZVAL`. -/
def Context.alloc (ctxt : Context) : Context × Addr :=
  ({ ctxt with heap := { ctxt.heap with next := ctxt.heap.next + 1 } }, ctxt.heap.next)

/-- Link the buckets, the first of which has the place `place`, into their chains: each
at the head of its own. -/
def link (nTableSize : Nat) : List Bucket → Nat → (Nat → List Nat) → Nat → List Nat
  | [], _, chains => chains
  | bucket :: buckets, place, chains =>
    let n := bucket.h % nTableSize
    link nTableSize buckets (place + 1) (Function.update chains n (place :: chains n))

def Heap.elements (heap : Heap) (addr : Addr) : List Addr :=
  match heap.cells addr with
  | none => []
  | some zval => zval.value.elements

/-- A finite graph: its zvals, each once, which are those that can be reached from the
root. -/
structure Graph (heap : Heap) (root : Addr) where
  nodes : List Addr
  nodup : nodes.Nodup
  root_mem : root ∈ nodes
  allocated : ∀ a ∈ nodes, a < heap.next ∧ (heap.cells a).isSome
  closed : ∀ a ∈ nodes, ∀ b ∈ heap.elements a, b ∈ nodes
  reached : ∀ part : List Addr, root ∈ part → (∀ a ∈ part, ∀ b ∈ heap.elements a, b ∈ part) →
    nodes ⊆ part

def Graph.meetings {heap : Heap} {root : Addr} (graph : Graph heap root) (a : Addr) : Nat :=
  (root :: graph.nodes.flatMap heap.elements).count a

def SameBucket (map : Addr → Addr) (bucket bucket' : Bucket) : Prop :=
  bucket'.h = bucket.h ∧ bucket'.key = bucket.key ∧ bucket'.data = map bucket.data

def Table.Hashed (table : Table) : Prop :=
  ∀ n, (table.arBuckets n).Nodup ∧ ∀ place, place ∈ table.arBuckets n ↔
    ∃ bucket, table.list[place]? = some bucket ∧ bucket.h % table.nTableSize = n

/-- A value and its copy: the same scalar or string, or the same keys in the same order
over the copies of the elements, in a table that can be searched. -/
def SameValue (map : Addr → Addr) : Value → Value → Prop
  | .scalar scalar, .scalar scalar' => scalar' = scalar
  | .string bytes, .string bytes' => bytes' = bytes
  | .array table, .array table' =>
    List.Forall₂ (SameBucket map) table.list table'.list ∧
      table'.nTableSize = table.nTableSize ∧
      table'.nNextFreeElement = table.nNextFreeElement ∧ table'.Hashed
  | _, _ => False

end PhpExts.Apcu.Copy
