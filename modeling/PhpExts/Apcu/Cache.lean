import PhpExts.Zend.HashTable

/-!
# The cache of APCu

The functions of `apc_cache.c`. A cache is an array of chains of slots. A slot
has a key and an entry; the slot, its key and the entry lie in one pool, which
goes with them. A slot that is unlinked while its entry is referenced moves to
the garbage list, where `apc_cache_gc` looks at it again.

A chain is the list of its slots, and a pointer to a slot pointer is a place in
the list: `*slot = (*slot)->next` drops the slot at the place. The functions run
under the header's lock, so no other call comes between their steps, and the
state is not busy. Keys are C strings with their final zero byte, as
`apc_cache_make_key` gives them.

`time(0)` is `now`; the time `t` a caller passes may differ from it.
-/

namespace PhpExts.Apcu

open PhpExts.Zend

/-- `apc_cache_key_t`. -/
structure Key where
  str : Bytes
  h : Nat
  mtime : Int
  deriving DecidableEq

/-- `apc_cache_entry_t`. A pool has a number that no other pool has. -/
structure Entry (V : Type) where
  val : V
  ttl : Nat
  refCount : Int
  memSize : Nat
  pool : Nat
  deriving DecidableEq

/-- `apc_cache_slot_t`, without the link to the next slot. -/
structure Slot (V : Type) where
  key : Key
  value : Entry V
  nhits : Nat
  ctime : Int
  dtime : Int
  atime : Int
  deriving DecidableEq

/-- The settings of a cache, the hash function, and what is known of values: with a
serializer, arrays and objects are stored as strings. -/
structure Config (V : Type) where
  nslots : Nat
  nonempty : 0 < nslots
  gcTtl : Nat
  ttl : Nat
  serializer : Bool
  hash : Bytes → Nat
  isContainer : V → Bool

/-- `apc_cache_t` with its header. `freed` lists the slots whose pools have been
destroyed, with the times. -/
structure Cache (V : Type) where
  slots : Nat → List (Slot V)
  gc : List (Slot V)
  nhits : Nat
  nmisses : Nat
  ninserts : Nat
  nexpunges : Nat
  nentries : Nat
  memSize : Nat
  stime : Int
  freed : List (Slot V × Int)

def Cache.empty {V : Type} (now : Int) : Cache V := ⟨fun _ => [], [], 0, 0, 0, 0, 0, 0, now, []⟩

/-- The value an `int` takes. -/
def toInt32 (n : Int) : Int := (n + 2 ^ 31) % 2 ^ 32 - 2 ^ 31

variable {V : Type}

def Slot.expired (s : Slot V) (t : Int) : Bool :=
  s.value.ttl ≠ 0 ∧ s.ctime + s.value.ttl < t

/-- `h == key.h && !memcmp(str, key.str, key.len)`. A stored key that is shorter
differs at its final zero byte. -/
def Slot.matches (s : Slot V) (h : Nat) (str : Bytes) : Bool :=
  s.key.h = h ∧ str.isPrefixOf s.key.str

def Cache.setChain (c : Cache V) (i : Nat) (chain : List (Slot V)) : Cache V :=
  { c with slots := Function.update c.slots i chain }

def freeSlot (c : Cache V) (now : Int) (slot : Slot V) : Cache V :=
  { c with freed := c.freed ++ [(slot, now)] }

def discount (c : Cache V) (dead : Slot V) : Cache V :=
  { c with
    memSize := if c.memSize ≠ 0 then c.memSize - dead.value.memSize else c.memSize
    nentries := if c.nentries ≠ 0 then c.nentries - 1 else c.nentries }

/-- `apc_cache_remove_slot`, for a slot that is dropped from its chain. -/
def removeSlot (now : Int) (c : Cache V) (dead : Slot V) : Cache V :=
  if dead.value.refCount ≤ 0 then freeSlot (discount c dead) now dead
  else { discount c dead with gc := { dead with dtime := now } :: c.gc }

/-- Walk along a chain and remove the slots that are `dead`; the others stay. -/
def sweep (dead : Slot V → Bool) (now : Int) : Cache V → List (Slot V) → Cache V × List (Slot V)
  | c, [] => (c, [])
  | c, s :: rest =>
    if dead s then sweep dead now (removeSlot now c s) rest
    else
      let (c', kept) := sweep dead now c rest
      (c', s :: kept)

section

variable (config : Config V)

def collectable (now : Int) (s : Slot V) : Bool :=
  s.value.refCount = 0 ∨
    (if config.gcTtl ≠ 0 then now - s.dtime else 0) > config.gcTtl

def apcCacheGc (now : Int) (c : Cache V) : Cache V :=
  { c with
    gc := c.gc.filter fun s => !collectable config now s
    freed := c.freed ++ (c.gc.filter (collectable config now)).map fun s => (s, now) }

def makeKey (str : Bytes) (mtime : Int) : Key := ⟨str, config.hash str, mtime⟩

/-- `apc_cache_hash_slot`: the index of a key's chain. -/
def hashSlot (str : Bytes) : Nat := config.hash str % config.nslots

/-- The first slot in the chain of a key that has the key. -/
def lookup (c : Cache V) (str : Bytes) : Option (Slot V) :=
  (c.slots (hashSlot config str)).find? fun s => s.matches (config.hash str) str

def modifyFirst (str : Bytes) (f : Slot V → Slot V) : List (Slot V) → List (Slot V)
  | [] => []
  | s :: rest =>
    if s.matches (config.hash str) str then f s :: rest else s :: modifyFirst str f rest

def Cache.modifySlot (c : Cache V) (str : Bytes) (f : Slot V → Slot V) : Cache V :=
  c.setChain (hashSlot config str)
    (modifyFirst config str f (c.slots (hashSlot config str)))

/-- The test for a slot that is removed in passing: not accessed for the cache's time
to live, or past its own. -/
def stale (t : Int) (s : Slot V) : Bool :=
  (config.ttl ≠ 0 ∧ s.atime < t - config.ttl) ∨ s.expired t

def inForce (t : Int) (s : Slot V) : Bool :=
  s.value.ttl = 0 ∨ t ≤ s.ctime + s.value.ttl

/-- Where the walk of an insertion stops: the slots before the place, the ones from it
on, and whether the insertion is refused. -/
structure Place (V : Type) where
  cache : Cache V
  before : List (Slot V)
  rest : List (Slot V)
  refused : Bool

/-- The loop of `apc_cache_insert` over the chain. -/
def insertWalk (key : Key) (exclusive : Bool) (t now : Int) :
    Cache V → List (Slot V) → List (Slot V) → Place V
  | c, before, [] => ⟨c, before, [], false⟩
  | c, before, s :: rest =>
    if s.matches key.h key.str then
      if exclusive ∧ inForce t s then ⟨c, before, s :: rest, true⟩
      else ⟨removeSlot now c s, before, rest, false⟩
    else if stale config t s then insertWalk key exclusive t now (removeSlot now c s) before rest
    else insertWalk key exclusive t now c (before ++ [s]) rest

/-- What the pool's allocator gives `make_slot`: the slot and the copy of the key, no
slot, or a slot without a copy of the key; what the memory of the last holds, and
what its link leads to, is not known. -/
inductive Allocation (V : Type) where
  | succeeds
  | noSlot
  | noKey (junk : Slot V) (next : List (Slot V))

/-- The slot `make_slot` fills. -/
def newSlot (key : Key) (value : Entry V) (t : Int) : Slot V := ⟨key, value, 0, t, 0, t⟩

def count (c : Cache V) (poolSize : Nat) : Cache V :=
  { c with
    memSize := c.memSize + poolSize
    nentries := c.nentries + 1
    ninserts := c.ninserts + 1 }

/-- `*slot = make_slot(..., *slot, t)` and what follows, for the chain of the key. -/
def placeSlot (i : Nat) (place : Place V) (slot : Slot V) (poolSize : Nat)
    (allocation : Allocation V) : Bool × Cache V :=
  match allocation with
  | .succeeds =>
    (true, count (place.cache.setChain i (place.before ++ slot :: place.rest)) poolSize)
  | .noSlot => (false, place.cache.setChain i place.before)
  | .noKey junk next =>
    (true, count (place.cache.setChain i (place.before ++ junk :: next)) poolSize)

def apcCacheInsert (c : Cache V) (key : Key) (value : Entry V) (poolSize : Nat) (t now : Int)
    (exclusive : Bool) (allocation : Allocation V) : Bool × Cache V :=
  let i := key.h % config.nslots
  let collected := apcCacheGc config now c
  let place := insertWalk config key exclusive t now collected [] (collected.slots i)
  if place.refused then (false, place.cache.setChain i (place.before ++ place.rest))
  else
    placeSlot i place (newSlot key { value with memSize := poolSize } t) poolSize allocation

/-- `apc_cache_find`: the entry by its pool, and the cache. -/
def apcCacheFind (c : Cache V) (str : Bytes) (t : Int) : Option Nat × Cache V :=
  match lookup config c str with
  | none => (none, { c with nmisses := c.nmisses + 1 })
  | some s =>
    if s.expired t then (none, { c with nmisses := c.nmisses + 1 })
    else
      (some s.value.pool,
        Cache.modifySlot config { c with nhits := c.nhits + 1 } str fun s =>
          { s with
            nhits := s.nhits + 1
            value := { s.value with refCount := toInt32 (s.value.refCount + 1) }
            atime := t })

def apcCacheExists (c : Cache V) (str : Bytes) (t : Int) : Option Nat × Cache V :=
  match lookup config c str with
  | none => (none, c)
  | some s =>
    if s.expired t then (none, { c with nmisses := c.nmisses + 1 })
    else (some s.value.pool, c)

/-- `apc_cache_update`; an updater gives its result and the new value. -/
def apcCacheUpdate (c : Cache V) (str : Bytes) (updater : V → Bool × V) (now : Int) :
    Bool × Cache V :=
  match lookup config c str with
  | none => (false, c)
  | some s =>
    if config.serializer ∧ config.isContainer s.value.val then (false, c)
    else
      ((updater s.value.val).1,
        Cache.modifySlot config c str fun s =>
          { s with
            key := { s.key with mtime := now }
            value := { s.value with val := (updater s.value.val).2 } })

/-- The loop of `apc_cache_delete` over the chain: the chain without the first slot
that has the key, and that slot. -/
def deleteFirst (str : Bytes) : List (Slot V) → List (Slot V) × Option (Slot V)
  | [] => ([], none)
  | s :: rest =>
    if s.matches (config.hash str) str then (rest, some s)
    else
      let (kept, dead) := deleteFirst str rest
      (s :: kept, dead)

def apcCacheDelete (c : Cache V) (str : Bytes) (now : Int) : Bool × Cache V :=
  let (kept, dead) := deleteFirst config str (c.slots (hashSlot config str))
  match dead with
  | none => (false, c)
  | some s => (true, (removeSlot now c s).setChain (hashSlot config str) kept)

def releaseSlot (pool : Nat) (s : Slot V) : Slot V :=
  if s.value.pool = pool then
    { s with value := { s.value with refCount := toInt32 (s.value.refCount - 1) } }
  else s

/-- `apc_cache_release`, of an entry that is linked or on the garbage list. -/
def apcCacheRelease (c : Cache V) (pool : Nat) : Cache V :=
  { c with
    slots := fun i => (c.slots i).map (releaseSlot pool)
    gc := c.gc.map (releaseSlot pool) }

/-- Remove the slots of a chain that are `dead`. -/
def sweepChain (dead : Slot V → Bool) (now : Int) (c : Cache V) (i : Nat) : Cache V :=
  (sweep dead now c (c.slots i)).1.setChain i (sweep dead now c (c.slots i)).2

/-- Remove the slots of all chains that are `dead`. -/
def sweepAll (dead : Slot V → Bool) (now : Int) (c : Cache V) : Cache V :=
  (List.range config.nslots).foldl (sweepChain dead now) c

def apcCacheRealExpunge (now : Int) (c : Cache V) : Cache V :=
  { sweepAll config (fun _ => true) now { c with nexpunges := c.nexpunges + 1 } with
    stime := now, ninserts := 0, nentries := 0, nhits := 0, nmisses := 0 }

def apcCacheClear (now : Int) (c : Cache V) : Cache V :=
  { apcCacheRealExpunge config now c with stime := now, nexpunges := 0 }

/-- The test of the expunge for a slot past its time to live; the entry's goes before
the cache's. -/
def outlived (t : Int) (s : Slot V) : Bool :=
  if s.value.ttl ≠ 0 then s.ctime + s.value.ttl < t else s.ctime + config.ttl < t

/-- `apc_cache_default_expunge`: whether too little memory is available, and, once the
slots past their time are gone, whether there is room. -/
def apcCacheDefaultExpunge (short room : Bool) (t now : Int) (c : Cache V) : Cache V :=
  let collected := apcCacheGc config now c
  if short then
    if config.ttl = 0 then apcCacheRealExpunge config now collected
    else
      let swept := sweepAll config (outlived config t) now collected
      if room then swept else apcCacheRealExpunge config now swept
  else collected

end

/-- `apc_cache_make_entry`, in a pool. -/
def makeEntry (val : V) (ttl pool : Nat) : Entry V := ⟨val, ttl, 0, 0, pool⟩

inductive Call (V : Type) where
  | insert (str : Bytes) (val : V) (ttl pool poolSize : Nat) (exclusive : Bool) (t : Int)
  | update (str : Bytes) (updater : V → Bool × V)
  | delete (str : Bytes)
  | find (str : Bytes) (t : Int)
  | exists (str : Bytes) (t : Int)
  | release (pool : Nat)
  | clear
  | expunge (short room : Bool) (t : Int)
  | gc

def perform (config : Config V) (now : Int) (c : Cache V) : Call V → Cache V
  | .insert str val ttl pool poolSize exclusive t =>
    (apcCacheInsert config c (makeKey config str now) (makeEntry val ttl pool) poolSize t now
      exclusive .succeeds).2
  | .update str updater => (apcCacheUpdate config c str updater now).2
  | .delete str => (apcCacheDelete config c str now).2
  | .find str t => (apcCacheFind config c str t).2
  | .exists str t => (apcCacheExists config c str t).2
  | .release pool => apcCacheRelease c pool
  | .clear => apcCacheClear config now c
  | .expunge short room t => apcCacheDefaultExpunge config short room t now c
  | .gc => apcCacheGc config now c

end PhpExts.Apcu
