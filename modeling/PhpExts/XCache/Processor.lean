import Mathlib

/-!
# The processor of XCache

A value goes into the cache in two passes over its graph of zvals that are expanded from the same
macros: `calc` adds up the sizes, `store` fills a block of that size. Both keep a table of the
short strings and one of the zvals that they have met; `restore` makes a copy of the stored
graph for a request, with a table of zvals if the calc pass has met one of them twice.

Memory is read as the zvals at their addresses. What a graph takes in memory is less than
`2 ^ 64` bytes, and sums of sizes do not wrap around.
-/

namespace PhpExts.XCache.Processor

local instance lawfulBytes : LawfulBEq (List UInt8) := inferInstance

/-- A bucket: its hash or index, its key with the final zero byte, which is empty for an index,
and the zval that `pData` leads to. -/
structure Bucket where
  h : Nat
  key : List UInt8
  data : Nat
  deriving DecidableEq

/-- A `HashTable`: `arBuckets` is there where `nTableMask` is not 0; the buckets from
`pListHead` on. -/
structure Table where
  nTableSize : Nat
  nTableMask : Nat
  nNextFreeElement : Nat
  buckets : List Bucket
  deriving DecidableEq

/-- A value: a number, a string without its final zero byte and where it lies, or an array with the
address of its table. -/
inductive Value where
  | scalar (type value : Nat)
  | string (val : Nat) (bytes : List UInt8)
  | array (ht : Nat) (table : Table)
  deriving DecidableEq

structure Zval where
  value : Value
  refcount : Nat
  isRef : Bool
  deriving DecidableEq

abbrev Heap := Nat → Option Zval

structure Sizes where
  entry : Nat
  zval : Nat
  hashTable : Nat
  bucket : Nat
  pointer : Nat
  zval_pos : 0 < zval
  hashTable_pos : 0 < hashTable

/-- `ALIGN(n)`. -/
def align (n : Nat) : Nat := (n + 7) / 8 * 8

def maxDupStrLen : Nat := 256

/-! ## The calc pass -/

/-- What the calc pass has in `xc_processor_t`. -/
structure Calc where
  size : Nat
  strings : List (List UInt8)
  zvalptrs : List Nat
  haveReferences : Bool

/-- `ALLOC` in the calc pass. -/
def Calc.alloc (sized : Calc) (size : Nat) : Calc := { sized with size := align sized.size + size }

/-- `xc_calc_string_n`, for a string with its final zero byte. -/
def calcString (sized : Calc) (bytes : List UInt8) : Calc :=
  let realsize := bytes.length + 1
  if realsize > maxDupStrLen then sized.alloc realsize
  else if bytes ∈ sized.strings then sized
  else { sized.alloc realsize with strings := bytes :: sized.strings }

def calcBuckets (sizes : Sizes) (calcPtr : Calc → Nat → Option Calc) :
    Calc → List Bucket → Option Calc
  | sized, [] => some sized
  | sized, srcBucket :: rest => do
      let sized ← calcPtr (sized.alloc (sizes.bucket + srcBucket.key.length)) srcBucket.data
      calcBuckets sizes calcPtr sized rest

/-- `xc_calc_HashTable_zval_ptr`, with the table's own struct. -/
def calcTable (sizes : Sizes) (calcPtr : Calc → Nat → Option Calc) (sized : Calc)
    (table : Table) : Option Calc :=
  let sized := sized.alloc sizes.hashTable
  if table.nTableMask ≠ 0 then
    calcBuckets sizes calcPtr (sized.alloc (sizes.pointer * table.nTableSize)) table.buckets
  else some sized

/-- `xc_calc_zval_ptr`, with a bound on the depth of the recursion. -/
def calcZvalPtr (sizes : Sizes) (heap : Heap) : Nat → Calc → Nat → Option Calc
  | 0, _, _ => none
  | fuel + 1, sized, src =>
    if src ∈ sized.zvalptrs then some { sized with haveReferences := true }
    else
      match heap src with
      | none => none
      | some zval =>
        let sized := { sized.alloc sizes.zval with zvalptrs := src :: sized.zvalptrs }
        match zval.value with
        | .scalar _ _ => some sized
        | .string _ bytes => some (calcString sized bytes)
        | .array _ table => calcTable sizes (calcZvalPtr sizes heap fuel) sized table

def calcEntryVar (sizes : Sizes) (heap : Heap) (fuel : Nat) (name : List UInt8) (value : Nat) :
    Option Calc :=
  calcZvalPtr sizes heap fuel (calcString ⟨align sizes.entry, [], [], false⟩ name) value

/-! ## The passes that copy -/

/-- `PROCESSOR_TYPE` of a pass that copies. -/
inductive Pass where
  | store
  | restore
  deriving DecidableEq

/-- What a pass that copies has in `xc_processor_t`, the copies it has made, and where it has
written how many bytes. The memory of a request is given out in order as that of the block is. -/
structure Store where
  p : Nat
  strings : List (List UInt8 × Nat)
  zvalptrs : List (Nat × Nat)
  reference : Bool
  copies : Heap
  writes : List (Nat × Nat)

/-- `ALLOC` in a pass that copies, and the filling of what was allocated. -/
def Store.alloc (store : Store) (size : Nat) : Store × Nat :=
  ({ store with p := align store.p + size, writes := (align store.p, size) :: store.writes },
    align store.p)

/-- `xc_store_string_n`, or `estrndup` in the restore pass, for a string with its final zero
byte. -/
def storeString (pass : Pass) (store : Store) (bytes : List UInt8) : Store × Nat :=
  let realsize := bytes.length + 1
  if pass = .restore ∨ realsize > maxDupStrLen then store.alloc realsize
  else
    match store.strings.lookup bytes with
    | some ret => (store, ret)
    | none =>
      let (store, ret) := store.alloc realsize
      ({ store with strings := (bytes, ret) :: store.strings }, ret)

def storeBuckets (sizes : Sizes) (storePtr : Store → Nat → Option (Store × Nat)) :
    Store → List Bucket → Option (Store × List Bucket)
  | store, [] => some (store, [])
  | store, srcBucket :: rest => do
      let (store, _) := store.alloc (sizes.bucket + srcBucket.key.length)
      let (store, data) ← storePtr store srcBucket.data
      let (store, buckets) ← storeBuckets sizes storePtr store rest
      some (store, { srcBucket with data } :: buckets)

/-- `xc_store_HashTable_zval_ptr` or `xc_restore_HashTable_zval_ptr`, with the table's own
struct. -/
def storeTable (sizes : Sizes) (storePtr : Store → Nat → Option (Store × Nat)) (store : Store)
    (table : Table) : Option (Store × Nat × Table) :=
  let (store, ht) := store.alloc sizes.hashTable
  if table.nTableMask ≠ 0 then do
    let (store, _) := store.alloc (sizes.pointer * table.nTableSize)
    let (store, buckets) ← storeBuckets sizes storePtr store table.buckets
    some (store, ht, { table with buckets })
  else some (store, ht, { table with buckets := [] })

def Store.write (store : Store) (dst : Nat) (zval : Zval) : Store :=
  { store with copies := Function.update store.copies dst (some zval) }

/-- `xc_store_zval` or `xc_restore_zval`. -/
def storeZval (sizes : Sizes) (pass : Pass) (storePtr : Store → Nat → Option (Store × Nat))
    (store : Store) (dst : Nat) (zval : Zval) : Option Store :=
  match zval.value with
  | .scalar _ _ => some (store.write dst zval)
  | .string _ bytes =>
    let (store, val) := storeString pass store bytes
    some (store.write dst { zval with value := .string val bytes })
  | .array _ table => do
      let (store, ht, table) ← storeTable sizes storePtr store table
      some (store.write dst { zval with value := .array ht table })

/-- `zend_hash_add` to `zvalptrs`, where there is a table. -/
def Store.enter (store : Store) (src dst : Nat) : Store :=
  if store.reference then { store with zvalptrs := (src, dst) :: store.zvalptrs } else store

/-- `zend_hash_find` in `zvalptrs`, where there is a table. -/
def Store.find (store : Store) (src : Nat) : Option Nat :=
  if store.reference then store.zvalptrs.lookup src else none

/-- `xc_store_zval_ptr` or `xc_restore_zval_ptr`, with a bound on the depth of the recursion. -/
def storeZvalPtr (sizes : Sizes) (pass : Pass) (heap : Heap) :
    Nat → Store → Nat → Option (Store × Nat)
  | 0, _, _ => none
  | fuel + 1, store, src =>
    match store.find src with
    | some dst => some (store, dst)
    | none =>
      match heap src with
      | none => none
      | some zval => do
          let (store, dst) := store.alloc sizes.zval
          let store ← storeZval sizes pass (storeZvalPtr sizes pass heap fuel)
            (store.enter src dst) dst zval
          some (store, dst)

def storeEntryVar (sizes : Sizes) (heap : Heap) (fuel : Nat) (block : Nat) (name : List UInt8)
    (value : Nat) : Option (Store × Nat) :=
  let store : Store :=
    ⟨align (block + sizes.entry), [], [], true, fun _ => none, [(block, sizes.entry)]⟩
  storeZvalPtr sizes .store heap fuel (storeString .store store name).1 value

def Value.firstWord : Value → Nat
  | .scalar _ value => value
  | .string val _ => val
  | .array ht _ => ht

/-- `xc_processor_restore_zval`, into the zval `dst`; memory is given out from `p` on. The key
that the root is entered under is what `src` points to and not `src`. -/
def restoreZval (sizes : Sizes) (heap : Heap) (fuel : Nat) (haveReferences : Bool) (p : Nat)
    (dst src : Nat) : Option Heap :=
  match heap src with
  | none => none
  | some zval =>
    let store : Store := ⟨p, [], [], haveReferences, fun _ => none, []⟩
    (storeZval sizes .restore (storeZvalPtr sizes .restore heap fuel)
      (store.enter zval.value.firstWord dst) dst zval).map Store.copies

/-- An entry is stored in a block, and later its value is restored into the zval `dst` of a request
whose memory is given out from `p` on. -/
def setThenGet (sizes : Sizes) (heap : Heap) (fuel : Nat) (block : Nat) (name : List UInt8)
    (value p dst : Nat) : Option Heap := do
  let sized ← calcEntryVar sizes heap fuel name value
  let (store, src) ← storeEntryVar sizes heap fuel block name value
  restoreZval sizes store.copies fuel sized.haveReferences p dst src

def Heap.elements (heap : Heap) (addr : Nat) : List Nat :=
  match heap addr with
  | some ⟨.array _ table, _, _⟩ => table.buckets.map Bucket.data
  | _ => []

/-- A finite part of memory with all that its zvals lead to. A table without `arBuckets` is
empty. -/
structure Graph (heap : Heap) where
  nodes : List Nat
  allocated : ∀ a ∈ nodes, (heap a).isSome
  initialised : ∀ a ∈ nodes, ∀ ht table refcount isRef,
    heap a = some ⟨.array ht table, refcount, isRef⟩ → table.nTableMask = 0 → table.buckets = []
  closed : ∀ a ∈ nodes, ∀ b ∈ heap.elements a, b ∈ nodes

end PhpExts.XCache.Processor
