import Mathlib

/-!
# The rows of a Swoole table

A table is an array of root rows.  A key is hashed to a root row; further keys
of the same hash hang on it in a chain whose rows come from a pool.  This file
has the functions of `Table.c` that read and change one bucket (a root row with
its chain), the table around them, and the iterator.

The lock word of a row is left out here; `RowLock` adds it.  A row is its place
in its bucket, so writing through the pointer that `swTableRow_set` returns is an
argument of the model's function: the columns the caller writes are a function
on the row's data.
-/

namespace PhpExts.Swoole

/-! ## Keys as C strings -/

def keySize : Nat := 64

def cString (field : List UInt8) : List UInt8 := field.takeWhile (· != 0)

/-- `strncmp(row->key, key, keylen) == 0`, with the `keylen` bytes of the key as
the second list. -/
def strncmp : List UInt8 → List UInt8 → Bool
  | _, [] => true
  | [], _ :: _ => false
  | a :: as, b :: bs => a == b && (a == 0 || strncmp as bs)

/-- `memcpy(field, bytes, len)`: the rest of the field keeps its bytes. -/
def memcpy (field bytes : List UInt8) : List UInt8 := bytes ++ field.drop bytes.length

/-! ## Rows and buckets -/

/-- `swTableRow` without its lock: `data` stands for the bytes of its columns. -/
structure Row (δ : Type) where
  active : Bool
  key : List UInt8
  data : δ
  deriving DecidableEq

/-- A root row and the rows that `next` leads to from it. -/
structure Bucket (δ : Type) where
  root : Row δ
  chain : List (Row δ)
  deriving DecidableEq

variable {δ : Type}

def Bucket.rows (bucket : Bucket δ) : List (Row δ) := bucket.root :: bucket.chain

/-- A row after `bzero`, its data included. -/
def zeroRow (zero : δ) : Row δ := ⟨false, List.replicate keySize 0, zero⟩

/-- Whether a walk for `key` stops at the row. -/
def Row.agrees (key : List UInt8) (row : Row δ) : Bool := strncmp row.key key

/-- `swTableRow_get`, after the lock. -/
def swTableRowGet (bucket : Bucket δ) (key : List UInt8) : Option (Row δ) :=
  match bucket.rows.find? (Row.agrees key) with
  | none => none
  | some row => if row.active then some row else none

/-- The end of `swTableRow_set`, `memcpy(row->key, key, keylen); row->active = 1`,
and the columns its caller writes. -/
def Row.enter (key : List UInt8) (write : δ → δ) (row : Row δ) : Row δ :=
  ⟨true, memcpy row.key key, write row.data⟩

/-- Change the first row that satisfies `p`. -/
def changeFirst (p : Row δ → Bool) (f : Row δ → Row δ) : List (Row δ) → List (Row δ)
  | [] => []
  | row :: rows => if p row then f row :: rows else row :: changeFirst p f rows

/-- What `swTableRow_set` leaves: the bucket, the row it returns, whether it has
counted a new row, and whether that row is from the pool. -/
structure Placed (δ : Type) where
  bucket : Bucket δ
  row : Row δ
  counted : Bool
  pooled : Bool

/-- `swTableRow_set`, after the lock; `idle` says whether the pool has a row, whose
data is zero (`swTableRow_del` clears a row before it goes back). -/
def swTableRowSet (zero : δ) (idle : Bool) (bucket : Bucket δ) (key : List UInt8)
    (write : δ → δ) : Option (Placed δ) :=
  if bucket.root.active then
    match bucket.rows.find? (Row.agrees key) with
    | some row =>
      let bucket' : Bucket δ :=
        if bucket.root.agrees key then { bucket with root := bucket.root.enter key write }
        else { bucket with
          chain := changeFirst (Row.agrees key) (Row.enter key write) bucket.chain }
      some ⟨bucket', row.enter key write, false, false⟩
    | none =>
      if idle then
        let row := (zeroRow zero).enter key write
        some ⟨{ bucket with chain := bucket.chain ++ [row] }, row, true, true⟩
      else none
  else
    let row := bucket.root.enter key write
    some ⟨{ bucket with root := row }, row, true, false⟩

/-- The branch of `swTableRow_del` that clears the root row in place: the key's row
is the root and nothing is chained to it. -/
def clearsRoot (bucket : Bucket δ) (key : List UInt8) : Bool :=
  bucket.chain.isEmpty && bucket.root.agrees key

/-- `swTableRow_del` after the lock: the bucket afterwards, and whether a row has gone
back to the pool; `none` is `SW_ERR`. -/
def delLocked (zero : δ) (bucket : Bucket δ) (key : List UInt8) : Option (Bucket δ × Bool) :=
  match bucket.chain with
  | [] => if clearsRoot bucket key then some (⟨zeroRow zero, []⟩, false) else none
  | tmp :: rest =>
    if bucket.root.agrees key then
      -- the next row's key and data move to the root, without the key's terminator
      some (⟨{ bucket.root with
        key := memcpy bucket.root.key (cString tmp.key), data := tmp.data }, rest⟩, true)
    else if (tmp :: rest).any (Row.agrees key) then
      some ({ bucket with chain := (tmp :: rest).eraseP (Row.agrees key) }, true)
    else none

/-- `swTableRow_del`: a root that is not in use is seen before the lock. -/
def swTableRowDel (zero : δ) (bucket : Bucket δ) (key : List UInt8) : Option (Bucket δ × Bool) :=
  if bucket.root.active then delLocked zero bucket key else none

/-- `swoole_hash_php`, whose `char` is signed. -/
def swooleHashPhp (key : List UInt8) : Nat :=
  (key.foldl (fun (hash : UInt64) b =>
    (hash <<< 5) + hash + (if b < 128 then b.toUInt64 else b.toUInt64 - 256)) 5381).toNat

/-- What is fixed when the table is created: `size` is a power of two, the hash
function, and the data of a row without contents. -/
structure Config (δ : Type) where
  exponent : Nat
  hash : List UInt8 → Nat
  zero : δ

/-- `table->size`. -/
def Config.size (config : Config δ) : Nat := 2 ^ config.exponent

/-- `swTable_hash`: the index of a key's root row, `hashv & table->mask`. -/
def Config.index (config : Config δ) (key : List UInt8) : Nat :=
  config.hash key &&& (config.size - 1)

structure Iterator (δ : Type) where
  absoluteIndex : Nat
  collisionIndex : Nat
  row : Option (Row δ)

/-- `swTable`: `idle` counts the pool's rows that are not in use. -/
structure Table (δ : Type) where
  rows : Nat → Bucket δ
  idle : Nat
  rowNum : Nat

/-- `swTable_create`, with `idle` rows in the pool. -/
def swTableCreate (config : Config δ) (idle : Nat) : Table δ :=
  ⟨fun _ => ⟨zeroRow config.zero, []⟩, idle, 0⟩

def Table.put (table : Table δ) (i : Nat) (bucket : Bucket δ) : Table δ :=
  { table with rows := Function.update table.rows i bucket }

def swTableIteratorRewind : Iterator δ := ⟨0, 0, none⟩

/-- The loop of `swTable_iterator_forward`, with `size - absolute_index` rounds left. -/
def forwardLoop (rows : Nat → Bucket δ) : Nat → Iterator δ → Iterator δ
  | 0, iterator => { iterator with row := none }
  | left + 1, iterator =>
    let bucket := rows iterator.absoluteIndex
    let beyond := { iterator with absoluteIndex := iterator.absoluteIndex + 1 }
    if !bucket.root.active then forwardLoop rows left beyond
    else if bucket.chain.isEmpty then { beyond with row := some bucket.root }
    else
      match bucket.rows[iterator.collisionIndex]? with
      | some row =>
        { iterator with collisionIndex := iterator.collisionIndex + 1, row := some row }
      | none => forwardLoop rows left { beyond with collisionIndex := 0 }

def swTableIteratorForward (config : Config δ) (table : Table δ) (iterator : Iterator δ) :
    Iterator δ :=
  forwardLoop table.rows (config.size - iterator.absoluteIndex) iterator

/-- The methods `valid`, `key`, `current` and `next` in the order of a foreach loop;
`none` is a loop that has not ended after `fuel` rounds. -/
def foreachLoop (config : Config δ) (table : Table δ) : Nat → Iterator δ → Option (List (Row δ))
  | 0, _ => none
  | fuel + 1, iterator =>
    match iterator.row with
    | none => some []
    | some row =>
      (foreachLoop config table fuel (swTableIteratorForward config table iterator)).map
        (row :: ·)

def rowCount (config : Config δ) (table : Table δ) : Nat :=
  ((List.range config.size).map fun i => (table.rows i).rows.length).sum

def swTableForeach (config : Config δ) (table : Table δ) : Option (List (Row δ)) :=
  foreachLoop config table (rowCount config table + 1)
    (swTableIteratorForward config table swTableIteratorRewind)

/-- A call on the table; `set` comes with the columns its caller writes. -/
inductive Step (δ : Type) where
  | get (key : List UInt8)
  | set (key : List UInt8) (write : δ → δ)
  | del (key : List UInt8)
  | foreach

/-- What a call returns: a row's key as it is spelled there and its data, whether the
deletion succeeded, or what the iteration yields. -/
inductive Outcome (δ : Type) where
  | row (found : Option (List UInt8 × δ))
  | deleted (ok : Bool)
  | rows (yielded : Option (List (List UInt8 × δ)))
  deriving DecidableEq

def Row.seen (row : Row δ) : List UInt8 × δ := (cString row.key, row.data)

def perform (config : Config δ) (table : Table δ) : Step δ → Table δ × Outcome δ
  | .get key =>
    let key := key.take keySize
    (table, .row ((swTableRowGet (table.rows (config.index key)) key).map Row.seen))
  | .set key write =>
    let key := key.take keySize
    let i := config.index key
    match swTableRowSet config.zero (0 < table.idle) (table.rows i) key write with
    | none => (table, .row none)
    | some placed =>
      ({ table.put i placed.bucket with
          idle := table.idle - placed.pooled.toNat
          rowNum := table.rowNum + placed.counted.toNat }, .row (some placed.row.seen))
  | .del key =>
    let key := key.take keySize
    let i := config.index key
    match swTableRowDel config.zero (table.rows i) key with
    | none => (table, .deleted false)
    | some (bucket, pooled) =>
      ({ table.put i bucket with
          idle := table.idle + pooled.toNat
          rowNum := table.rowNum - 1 }, .deleted true)
  | .foreach => (table, .rows ((swTableForeach config table).map (List.map Row.seen)))

end PhpExts.Swoole
