import PhpExts.Apcu.Cache
import PhpExts.Apcu.Sma

/-!
# The header's lock

Processes share a cache and the memory behind it.  `apc_cache_insert` holds the
header's lock from its first look at the garbage list to the write of the new slot.
In between it asks the entry's pool for the slot and for a copy of the key.  A pool
whose blocks are full asks `apc_sma_api_malloc_ex` for another block, and where a
segment is full, that calls the cache's expunge, which takes the header's lock
itself, unlinks slots and destroys them.  The flag that would keep it out is set by
an expunge, but not by an insertion.

A process goes from phase to phase; what a phase does to what is shared is one step,
so the steps of processes interleave between any two calls of the lock and of the
allocator.  The lock is a `pthread_rwlock_t`: the process that has it gets an error at
once when it asks again, which `apc_lock_wlock` does not look at.
-/

namespace PhpExts.Apcu.Locking

open PhpExts.Zend

/-! ## The pool of an entry -/

/-- `ALIGNSIZE(x, size)`, of a positive `x`. -/
def alignSize (x size : Nat) : Nat := size * (1 + (x - 1) / size)

/-- `apc_realpool`: what is left in its blocks, the newest first, how many were added to
the first, the size to which the next one is rounded up, and the size of all. -/
structure Pool where
  avail : List Nat
  count : Nat
  dsize : Nat
  size : Nat
  deriving DecidableEq

/-- What `apc_realpool_create` asks for, for a small pool: `sizeof(apc_realpool)` and the
first block. -/
def contextSize : Nat := 144 + 512

def Pool.small : Pool := ⟨[512], 0, 512, contextSize⟩

/-- Take `realsize` bytes from the first of the next `fuel` blocks that has them. -/
def takeFrom (realsize : Nat) : Nat → List Nat → Option (List Nat)
  | 0, _ | _ + 1, [] => none
  | fuel + 1, avail :: blocks =>
    if realsize ≤ avail then some ((avail - realsize) :: blocks)
    else (takeFrom realsize fuel blocks).map (avail :: ·)

namespace Pool

/-- `apc_realpool_alloc`, as far as it needs no new block: it looks at eight. -/
def take (pool : Pool) (size : Nat) : Option Pool :=
  (takeFrom (alignSize size 8) 8 pool.avail).map fun avail => { pool with avail }

/-- The upgrade of `dsize` in front of a new block. -/
def upgraded (pool : Pool) : Nat :=
  if 4 < pool.count ∧ pool.dsize < 4096 then 4096
  else if 8 < pool.count ∧ pool.dsize < 8192 then 8192
  else pool.dsize

/-- `poolsize`. -/
def blockSize (pool : Pool) (size : Nat) : Nat := alignSize (alignSize size 8) pool.upgraded

/-- `realsize` of `create_pool_block`: `sizeof(pool_block)` and the block. -/
def request (pool : Pool) (size : Nat) : Nat := 32 + alignSize (pool.blockSize size) 8

/-- The pool with a new block, and `size` bytes taken from it. -/
def grown (pool : Pool) (size : Nat) : Pool where
  avail := (pool.blockSize size - alignSize size 8) :: pool.avail
  count := pool.count + 1
  dsize := pool.upgraded
  size := pool.size + pool.request size

end Pool

/-- `ALIGNWORD(sizeof(apc_cache_slot_t))`. -/
def slotSize : Nat := 88

/-- The allocator as the cache sees it: how many segments there are, `sma_allocate` (for a
pool, of a segment, a size and a fragment), all blocks of a pool given back, and the two
questions of an expunge, whether too little is available for a size and whether there is
a block for it. -/
structure Memory (M : Type) where
  num : Nat
  allocate : Nat → Nat → Nat → Nat → M → Option M
  destroy : Nat → M → M
  short : Nat → M → Bool
  room : Nat → M → Bool

/-- The fragment of `apc_sma_api_malloc`: `MINBLOCKSIZE`. -/
def fragment : Nat := 40

structure Shared where
  segment : Sma.Segment
  blocks : List (Nat × Nat)

/-- The allocator with one segment, and the cache's setting `smart` 0. -/
def Memory.ofLayout (layout : Sma.Layout) : Memory Shared where
  num := 1
  allocate pool _ size fragment m :=
    let result := Sma.smaAllocate layout m.segment size fragment
    result.2.map fun offset => ⟨result.1, (pool, offset) :: m.blocks⟩
  destroy pool m :=
    (m.blocks.filter (·.1 = pool)).foldl
      (fun m block => { m with
        segment := (Sma.smaDeallocate layout m.segment block.2).getD m.segment })
      { m with blocks := m.blocks.filter (·.1 ≠ pool) }
  short _ m := m.segment.avail < layout.segsize / 2
  room size m := size < m.segment.avail

variable {ι V M : Type}

/-- What a store carries on its way: the key, the entry, the time, whether it must be new,
and the pool. -/
structure Insertion (V : Type) where
  key : Key
  value : Entry V
  t : Int
  exclusive : Bool
  pool : Pool

/-- What memory is asked for: the pool itself, the entry and its value, or, under the
lock, the slot and the copy of the key for the place that the walk has found. -/
inductive Job (V : Type) where
  | context
  | entry (size : Nat)
  | slot (place : Place V)
  | key (place : Place V)

def Job.place : Job V → Option (Place V)
  | .context | .entry _ => none
  | .slot place | .key place => some place

def Job.size (insertion : Insertion V) : Job V → Nat
  | .context => 0
  | .entry size => size
  | .slot _ => slotSize
  | .key _ => insertion.key.str.length

def Job.request (insertion : Insertion V) (job : Job V) : Nat :=
  match job with
  | .context => contextSize
  | job => insertion.pool.request (job.size insertion)

/-- Where `apc_sma_api_malloc_ex` is: the segments still to try, whether the first of them
has been tried before the expunge, and whether the last resort has been used. -/
structure Search where
  remaining : List Nat
  retried : Bool
  nuked : Bool

inductive Work (V : Type) where
  | find (str : Bytes) (t : Int)
  | update (str : Bytes) (updater : V → Bool × V)
  | insert (insertion : Insertion V)
  | expunge (insertion : Insertion V) (job : Job V) (search : Search)

/-- Where a process is.  `failed` is in front of the expunge; what leaves may have a pool
that was not used. -/
inductive Phase (V : Type) where
  | outside
  | preparing (insertion : Insertion V)
  | allocating (insertion : Insertion V) (job : Job V) (search : Search)
  | failed (insertion : Insertion V) (job : Job V) (search : Search)
  | waiting (work : Work V)
  | finding (str : Bytes) (t : Int)
  | updating (str : Bytes) (updater : V → Bool × V)
  | inserting (insertion : Insertion V)
  | placing (insertion : Insertion V) (place : Place V) (allocation : Allocation V)
  | expunging (insertion : Insertion V) (job : Job V) (search : Search)
  | expunged (insertion : Insertion V) (job : Job V) (search : Search)
  | found
  | leaving (unused : Option Nat)

/-- The insertion and the place at which it is about to write, of a process that stands
between its walk and its write. -/
def Phase.target : Phase V → Option (Insertion V × Place V)
  | .allocating insertion job _ | .failed insertion job _ | .waiting (.expunge insertion job _)
  | .expunging insertion job _ | .expunged insertion job _ => job.place.map (insertion, ·)
  | .placing insertion place _ => some (insertion, place)
  | _ => none

def Phase.holds : Phase V → Bool
  | .updating _ _ | .inserting _ | .placing _ _ _ | .expunging _ _ _ | .expunged _ _ _
  | .leaving _ => true
  | .allocating _ job _ | .failed _ job _ | .waiting (.expunge _ job _) => job.place.isSome
  | _ => false

/-- What is shared, and where each process is; `last` is a process's own. -/
structure System (ι V M : Type) where
  cache : Cache V
  busy : Bool
  writer : Option ι
  readers : Nat
  memory : M
  last : ι → Nat
  phase : ι → Phase V

inductive Event (ι V : Type) where
  | store (p : ι) (insertion : Insertion V)
  | find (p : ι) (str : Bytes) (t : Int)
  | update (p : ι) (str : Bytes) (updater : V → Bool × V)
  | release (pool : Nat)
  | palloc (p : ι) (size : Nat)
  | abandon (p : ι)
  | insert (p : ι)
  | attempt (p : ι) (junk : Slot V) (next : List (Slot V))
  | check (p : ι)
  | lock (p : ι)
  | body (p : ι) (now : Int)
  | unlock (p : ι)

/-- The segments in the order in which `apc_sma_api_malloc_ex` tries them. -/
def Memory.order (memory : Memory M) (last : Nat) : List Nat :=
  last :: (List.range memory.num).filter (· ≠ last)

def Memory.after (memory : Memory M) (before after : Cache V) (m : M) : M :=
  (after.freed.drop before.freed.length).foldl
    (fun m dead => memory.destroy dead.1.value.pool m) m

variable (config : Config V) (memory : Memory M)

/-- `make_slot` has its slot: it asks the pool for the copy of the key. -/
def askKey (last : Nat) (insertion : Insertion V) (place : Place V) : Phase V :=
  match insertion.pool.take insertion.key.str.length with
  | some pool => .placing { insertion with pool } place .succeeds
  | none => .allocating insertion (.key place) ⟨memory.order last, false, false⟩

def given (last : Nat) (insertion : Insertion V) : Job V → Phase V
  | .context | .entry _ => .preparing insertion
  | .slot place => askKey memory last insertion place
  | .key place => .placing insertion place .succeeds

/-- `apc_realpool_alloc` for a job. -/
def ask (last : Nat) (insertion : Insertion V) (job : Job V) : Phase V :=
  match insertion.pool.take (job.size insertion) with
  | some pool => given memory last { insertion with pool } job
  | none => .allocating insertion job ⟨memory.order last, false, false⟩

/-- The job has no memory: a store without a pool is over, one with a pool gives up, and
`make_slot` answers with no slot, or with one that it has not filled. -/
def denied (insertion : Insertion V) (junk : Slot V) (next : List (Slot V)) : Job V → Phase V
  | .context => .outside
  | .entry _ => .preparing insertion
  | .slot place => .placing insertion place .noSlot
  | .key place => .placing insertion place (.noKey junk next)

def Job.grown (insertion : Insertion V) (job : Job V) : Pool :=
  match job with
  | .context => .small
  | job => insertion.pool.grown (job.size insertion)

def Insertion.index (insertion : Insertion V) : Nat := insertion.key.h % config.nslots

def CellIntact (cache : Cache V) (insertion : Insertion V) (place : Place V) : Prop :=
  (cache.slots (insertion.index config)).map (·.value.pool) =
    (place.before ++ place.rest).map (·.value.pool)

instance (cache : Cache V) (insertion : Insertion V) (place : Place V) :
    Decidable (CellIntact config cache insertion place) :=
  inferInstanceAs (Decidable (_ = _))

variable [DecidableEq ι]

def System.move (system : System ι V M) (p : ι) (phase : Phase V) : System ι V M :=
  { system with phase := Function.update system.phase p phase }

def System.writable (system : System ι V M) (p : ι) : Bool :=
  (system.writer = none ∧ system.readers = 0) ∨ system.writer = some p

/-- One attempt of `apc_sma_api_malloc_ex`. -/
def attempt (system : System ι V M) (p : ι) (junk : Slot V) (next : List (Slot V))
    (insertion : Insertion V) (job : Job V) (search : Search) : System ι V M :=
  match search.remaining with
  | [] =>
    if search.nuked then system.move p (denied insertion junk next job)
    else system.move p
      (.failed insertion job ⟨memory.order (system.last p), false, true⟩)
  | segment :: rest =>
    match memory.allocate insertion.value.pool segment (job.request insertion) fragment
        system.memory with
    | some m =>
      { system.move p (given memory segment { insertion with pool := job.grown insertion } job)
        with memory := m, last := Function.update system.last p segment }
    | none =>
      if search.retried then
        system.move p (.allocating insertion job ⟨rest, false, search.nuked⟩)
      else system.move p (.failed insertion job ⟨segment :: rest, true, search.nuked⟩)

def takeLock (system : System ι V M) (p : ι) : Work V → Option (System ι V M)
  | .find str t =>
    if system.writer = none ∨ system.writer = some p then
      some { system.move p (.finding str t) with readers := system.readers + 1 }
    else none
  | .update str updater =>
    if system.writable p then
      some { system.move p (.updating str updater) with writer := some p }
    else none
  | .insert insertion =>
    if system.writable p then
      some { system.move p (.inserting insertion) with writer := some p }
    else none
  | .expunge insertion job search =>
    if system.writable p then
      some { system.move p (.expunging insertion job search) with
        writer := some p, busy := true }
    else none

/-- `apc_cache_gc` and the walk of `apc_cache_insert`. -/
def walk (system : System ι V M) (p : ι) (now : Int) (insertion : Insertion V) : System ι V M :=
  let i := insertion.index config
  let collected := apcCacheGc config now system.cache
  let place := insertWalk config insertion.key insertion.exclusive insertion.t now collected []
    (collected.slots i)
  let cache := place.cache.setChain i (place.before ++ place.rest)
  let phase := if place.refused then .leaving (some insertion.value.pool)
    else ask memory (system.last p) insertion (.slot place)
  { system.move p phase with cache, memory := memory.after system.cache cache system.memory }

/-- The write of `apc_cache_insert`; when the cell is gone, what it does is not known. -/
def write (system : System ι V M) (p : ι) (insertion : Insertion V) (place : Place V)
    (allocation : Allocation V) : System ι V M :=
  if CellIntact config system.cache insertion place then
    let i := insertion.index config
    let chain := system.cache.slots i
    let here : Place V := ⟨system.cache, chain.take place.before.length,
      chain.drop place.before.length, false⟩
    let slot := newSlot insertion.key { insertion.value with memSize := insertion.pool.size }
      insertion.t
    let result := placeSlot i here slot insertion.pool.size allocation
    { system.move p (.leaving (if result.1 then none else some insertion.value.pool)) with
      cache := result.2 }
  else system.move p (.leaving none)

/-- The body of `apc_cache_default_expunge`, for `n + fragment` bytes. -/
def expunge (system : System ι V M) (p : ι) (now : Int) (insertion : Insertion V) (job : Job V)
    (search : Search) : System ι V M :=
  let size := job.request insertion + fragment
  let collected := apcCacheGc config now system.cache
  let swept := sweepAll config (outlived config now) now collected
  let short := memory.short size (memory.after system.cache collected system.memory)
  let room := memory.room size (memory.after system.cache swept system.memory)
  let cache := apcCacheDefaultExpunge config short room now now system.cache
  { system.move p (.expunged insertion job search) with
    cache, memory := memory.after system.cache cache system.memory }

/-- One step, `none` if the process cannot take it. -/
def step (system : System ι V M) : Event ι V → Option (System ι V M)
  | .store p insertion =>
    match system.phase p with
    | .outside =>
      some (system.move p (.allocating insertion .context
        ⟨memory.order (system.last p), false, false⟩))
    | _ => none
  | .find p str t =>
    match system.phase p with
    | .outside => some (if system.busy then system else system.move p (.waiting (.find str t)))
    | _ => none
  | .update p str updater =>
    match system.phase p with
    | .outside =>
      some (if system.busy then system else system.move p (.waiting (.update str updater)))
    | _ => none
  | .release pool => some { system with cache := apcCacheRelease system.cache pool }
  | .palloc p size =>
    match system.phase p with
    | .preparing insertion =>
      some (system.move p (ask memory (system.last p) insertion (.entry size)))
    | _ => none
  | .abandon p =>
    match system.phase p with
    | .preparing insertion =>
      some { system.move p .outside with
        memory := memory.destroy insertion.value.pool system.memory }
    | _ => none
  | .insert p =>
    match system.phase p with
    | .preparing insertion =>
      if system.busy then
        some { system.move p .outside with
          memory := memory.destroy insertion.value.pool system.memory }
      else some (system.move p (.waiting (.insert insertion)))
    | _ => none
  | .attempt p junk next =>
    match system.phase p with
    | .allocating insertion job search =>
      some (attempt memory system p junk next insertion job search)
    | _ => none
  | .check p =>
    match system.phase p with
    | .failed insertion job search =>
      some (system.move p (if system.busy then .allocating insertion job search
        else .waiting (.expunge insertion job search)))
    | _ => none
  | .lock p =>
    match system.phase p with
    | .waiting work => takeLock system p work
    | _ => none
  | .body p now =>
    match system.phase p with
    | .finding str t =>
      some { system.move p .found with cache := (apcCacheFind config system.cache str t).2 }
    | .updating str updater =>
      some { system.move p (.leaving none) with
        cache := (apcCacheUpdate config system.cache str updater now).2 }
    | .inserting insertion => some (walk config memory system p now insertion)
    | .placing insertion place allocation =>
      some (write config system p insertion place allocation)
    | .expunging insertion job search =>
      some (expunge config memory system p now insertion job search)
    | _ => none
  | .unlock p =>
    match system.phase p with
    | .found => some { system.move p .outside with readers := system.readers - 1 }
    | .leaving unused =>
      some { system.move p .outside with
        writer := none
        memory := match unused with
          | some pool => memory.destroy pool system.memory
          | none => system.memory }
    | .expunged insertion job search =>
      some { system.move p (.allocating insertion job search) with
        writer := none, busy := false }
    | _ => none

end PhpExts.Apcu.Locking
