import PhpExts.Library.Memory
import Mathlib.Data.List.FinRange

/-!
# The cache of compiled files

Processes look compiled files up in a cache in shared memory. An entry is a file under its
name; it points to the record of what has been compiled, which is shared by all entries with
the same source. Both are in memory at addresses, linked in chains.

A section under the lock is one action. A function that reads or frees a record that is not
live, or runs into an assertion, is undefined: it is `none` here.
-/

namespace PhpExts.XCache.PhpCache

open PhpExts.Library
open Function (update)

abbrev Digest := List UInt8

/-- What `xc_entry_php_init_key` finds out about a file: its path, and the fields of `stat`
(zero if `xcache.stat` is off). -/
structure Key where
  name : List UInt8
  inode : Nat
  device : Nat
  mtime : Int
  size : Nat
  deriving DecidableEq

/-- `xc_entry_data_php_t`. -/
structure Php where
  digest : Digest
  refcount : Int

/-- `xc_entry_php_t`. -/
structure Entry where
  key : Key
  php : Nat
  refcount : Int
  atime : Int
  dtime : Int

/-- The sizes of the two hash tables, the slot of a digest, and the settings for
collections. -/
structure Config where
  slots : Nat
  phpSlots : Nat
  hvalue : Digest → Fin phpSlots
  ttl : Int
  gcInterval : Int

variable (config : Config)

/-- `xc_cached_t` with the memory of its records, and the entries on the `php_holds` stacks
of all processes. `removals` notes what has been unlinked and what has been freed for it. -/
structure Cached where
  compiling : Int
  entries : Fin config.slots → List Nat
  entriesCount : Int
  phps : Fin config.phpSlots → List Nat
  deletes : List Nat
  deletesCount : Int
  lastGcDeletes : Int
  lastGcExpires : Int
  entryMemory : Memory Entry
  phpMemory : Memory Php
  holds : List (Nat × Nat)
  removals : List (Nat × Nat)

variable {config}

/-! ## Functions of the source -/

def findFirst {α : Type} (memory : Memory α) (p : α → Bool) : List Nat → Option (Option Nat)
  | [] => some none
  | address :: chain => do
    if p (← memory.read address) then some (some address) else findFirst memory p chain

/-- The address an allocation gives out, if there is memory. -/
def allocates {α : Type} (memory : Memory α) (address : Option Nat) : Option Nat :=
  address.filter (· ∉ memory.live)

/-- `xc_entry_equal_unlocked`. -/
def entryEqual (entry1 entry2 : Key) : Bool :=
  if entry1.inode ≠ 0 ∧ entry2.inode ≠ 0 ∧
      ¬ (entry1.inode = entry2.inode ∧ entry1.device = entry2.device) then false
  else entry1.name = entry2.name

/-- `xc_php_store_unlocked`. -/
def phpStore (cached : Cached config) (php : Nat) (digest : Digest) : Cached config :=
  { cached with
    phpMemory := cached.phpMemory.allocate php ⟨digest, 0⟩
    phps := update cached.phps (config.hvalue digest)
      (php :: cached.phps (config.hvalue digest)) }

/-- `xc_php_find_unlocked`. -/
def phpFind (cached : Cached config) (digest : Digest) : Option (Option Nat) :=
  findFirst cached.phpMemory (fun p => digest = p.digest) (cached.phps (config.hvalue digest))

/-- `xc_php_addref_unlocked`. -/
def phpAddref (cached : Cached config) (php : Nat) : Option (Cached config) := do
  let p ← cached.phpMemory.read php
  some { cached with
    phpMemory := cached.phpMemory.write php { p with refcount := p.refcount + 1 } }

/-- `xc_php_release_unlocked`. -/
def phpRelease (cached : Cached config) (php : Nat) : Option (Cached config) := do
  let p ← cached.phpMemory.read php
  let memory := cached.phpMemory.write php { p with refcount := p.refcount - 1 }
  if p.refcount - 1 = 0 then do
    let slot := config.hvalue p.digest
    let unlinked ← (← findFirst memory (fun other => p.digest = other.digest) (cached.phps slot))
    some { cached with
      phpMemory := memory.free php
      phps := update cached.phps slot ((cached.phps slot).erase unlinked)
      removals := (unlinked, php) :: cached.removals }
  else some { cached with phpMemory := memory }

/-- `xc_entry_free_real_unlocked`. -/
def entryFreeReal (cached : Cached config) (entry : Nat) : Option (Cached config) := do
  let e ← cached.entryMemory.read entry
  let cached ← phpRelease cached e.php
  some { cached with entryMemory := cached.entryMemory.free entry }

/-- `xc_entry_free_unlocked`. -/
def entryFree (requestTime : Int) (cached : Cached config) (entry : Nat) :
    Option (Cached config) := do
  let cached := { cached with entriesCount := cached.entriesCount - 1 }
  let e ← cached.entryMemory.read entry
  if e.refcount = 0 then entryFreeReal cached entry
  else
    some { cached with
      deletes := entry :: cached.deletes
      entryMemory := cached.entryMemory.write entry { e with dtime := requestTime }
      deletesCount := cached.deletesCount + 1 }

def unlink (cached : Cached config) (slot : Fin config.slots) (entry : Nat) : Cached config :=
  { cached with
    entries := update cached.entries slot ((cached.entries slot).erase entry) }

/-- `xc_entry_remove_unlocked`. -/
def entryRemove (requestTime : Int) (cached : Cached config) (slot : Fin config.slots)
    (entry : Nat) : Option (Cached config) := do
  let e ← cached.entryMemory.read entry
  let p ← (← findFirst cached.entryMemory (fun p => entryEqual e.key p.key) (cached.entries slot))
  entryFree requestTime
    { unlink cached slot p with removals := (p, entry) :: cached.removals } entry

/-- `xc_entry_find_unlocked`. -/
def entryFind (requestTime : Int) (cached : Cached config) (slot : Fin config.slots) (key : Key) :
    Option (Option Nat × Cached config) := do
  match ← findFirst cached.entryMemory (fun p => entryEqual key p.key) (cached.entries slot) with
  | none => some (none, cached)
  | some p =>
    let e ← cached.entryMemory.read p
    if e.key.mtime = key.mtime ∧ e.key.size = key.size then
      some (some p, { cached with
        entryMemory := cached.entryMemory.write p { e with atime := requestTime } })
    else some (none, ← entryRemove requestTime cached slot p)

/-- `xc_resolve_path_check_entry_unlocked` with the find for the name itself: the paths are
tried one after the other. -/
def lookupPaths (requestTime : Int) (slot : Fin config.slots) :
    List Key → Cached config → Option (Option Nat × Cached config)
  | [], cached => some (none, cached)
  | key :: keys, cached => do
    let (stored, cached) ← entryFind requestTime cached slot key
    match stored with
    | some entry => some (some entry, cached)
    | none => lookupPaths requestTime slot keys cached

/-- `xc_entry_php_store_unlocked`, followed by `xc_php_addref_unlocked`. -/
def entryStore (requestTime : Int) (cached : Cached config) (slot : Fin config.slots)
    (entry : Nat) (key : Key) (php : Nat) : Option (Cached config) :=
  phpAddref { cached with
    entryMemory := cached.entryMemory.allocate entry ⟨key, php, 0, requestTime, 0⟩
    entries := update cached.entries slot (entry :: cached.entries slot)
    entriesCount := cached.entriesCount + 1 } php

/-- `xc_entry_hold_php_unlocked`. -/
def hold (pid : Nat) (cached : Cached config) (entry : Nat) : Option (Cached config) := do
  let e ← cached.entryMemory.read entry
  some { cached with
    entryMemory := cached.entryMemory.write entry { e with refcount := e.refcount + 1 }
    holds := (pid, entry) :: cached.holds }

/-- `xc_entry_unholds`: the stack of a process is popped until it is empty. -/
def unholds (pid : Nat) : List (Nat × Nat) → Cached config → Option (Cached config)
  | [], cached => some cached
  | top :: stack, cached =>
    if top.1 = pid then do
      let e ← cached.entryMemory.read top.2
      unholds pid stack { cached with
        entryMemory := cached.entryMemory.write top.2 { e with refcount := e.refcount - 1 }
        holds := cached.holds.erase top }
    else unholds pid stack cached

/-- The walk of `xc_entry_apply_unlocked` through a chain, with
`xc_gc_expires_php_entry_unlocked`. -/
def applyChain (requestTime : Int) (slot : Fin config.slots) :
    List Nat → Cached config → Option (Cached config)
  | [], cached => some cached
  | p :: chain, cached => do
    let e ← cached.entryMemory.read p
    if e.atime + config.ttl < requestTime then
      applyChain requestTime slot chain (← entryFree requestTime
        { unlink cached slot p with removals := (p, p) :: cached.removals } p)
    else applyChain requestTime slot chain cached

/-- `xc_entry_apply_unlocked`. -/
def apply (requestTime : Int) (cached : Cached config) : Option (Cached config) :=
  (List.finRange config.slots).foldlM
    (fun cached slot => applyChain requestTime slot (cached.entries slot) cached) cached

/-- `xc_gc_expires_one`. -/
def gcExpires (requestTime : Int) (cached : Cached config) : Option (Cached config) :=
  if cached.lastGcExpires + config.gcInterval ≤ requestTime then
    apply requestTime { cached with lastGcExpires := requestTime }
  else some cached

/-- The loop of `xc_gc_delete_unlocked`. -/
def gcDelete (requestTime : Int) : List Nat → Cached config → Option (Cached config)
  | [], cached => some cached
  | p :: deletes, cached => do
    let e ← cached.entryMemory.read p
    let refcount := if 3600 < requestTime - e.dtime then 0 else e.refcount
    let cached := { cached with entryMemory := cached.entryMemory.write p { e with refcount } }
    if refcount = 0 then
      gcDelete requestTime deletes (← entryFreeReal
        { cached with
          deletes := cached.deletes.erase p
          deletesCount := cached.deletesCount - 1
          removals := (p, p) :: cached.removals } p)
    else gcDelete requestTime deletes cached

/-- `xc_gc_deletes_one`. -/
def gcDeletes (requestTime : Int) (cached : Cached config) : Option (Cached config) :=
  if cached.deletes ≠ [] ∧ 120 < requestTime - cached.lastGcDeletes then
    gcDelete requestTime cached.deletes { cached with lastGcDeletes := requestTime }
  else some cached

/-- The loop of `xc_clear` through a chain. -/
def clearChain (requestTime : Int) (slot : Fin config.slots) :
    List Nat → Cached config → Option (Cached config)
  | [], cached => some cached
  | e :: chain, cached => do
    clearChain requestTime slot chain (← entryRemove requestTime cached slot e)

/-- `xc_clear`. -/
def clear (requestTime : Int) (cached : Cached config) : Option (Cached config) :=
  (List.finRange config.slots).foldlM (fun cached slot => do
    let cached ← clearChain requestTime slot (cached.entries slot) cached
    some { cached with entries := update cached.entries slot [] }) cached

/-! ## Compile requests -/

variable (config)

/-- A file that is to be compiled: the slot of its name, the paths that are tried for it, and
its key. -/
structure Compiler where
  slot : Fin config.slots
  paths : List (List UInt8)
  newEntry : Key

/-- Where a process is in `xc_compile_file_cached`. -/
inductive Status where
  | idle
  | checked (compiler : Compiler config)
  | compiling (compiler : Compiler config) (digest : Digest)
  | stored

structure Process where
  requestTime : Int
  status : Status config

structure System where
  cached : Cached config
  process : Nat → Process config
  clock : Int

variable {config}

inductive Found where
  | done
  | caught
  | compile (digest : Digest)

/-- The locked section that looks a file up. The source may be unreadable, a new entry may
find no memory, and either may end in a bailout, which is caught. -/
def lookup (pid : Nat) (requestTime : Int) (compiler : Compiler config) (digest : Option Digest)
    (memory : Option Nat) (bails : Bool) (cached : Cached config) :
    Option (Found × Cached config) := do
  let keys := compiler.paths.map (fun name => { compiler.newEntry with name }) ++
    [compiler.newEntry]
  let (storedEntry, cached) ← lookupPaths requestTime compiler.slot keys cached
  match storedEntry with
  | some entry => some (.done, ← hold pid cached entry)
  | none =>
    match digest with
    | none => some (if bails then .caught else .done, cached)
    | some digest =>
      match ← phpFind cached digest with
      | some php =>
        match allocates cached.entryMemory memory with
        | some entry =>
          let cached ← entryStore requestTime cached compiler.slot entry compiler.newEntry php
          some (.done, ← hold pid cached entry)
        | none => some (if bails then .caught else .done, cached)
      | none =>
        if requestTime - cached.compiling < 30 then some (.done, cached)
        else some (.compile digest, { cached with compiling := requestTime })

/-- The locked section that stores what has been compiled. -/
def store (pid : Nat) (requestTime : Int) (compiler : Compiler config) (digest : Digest)
    (phpRoom entryRoom : Option Nat) (cached : Cached config) : Option (Cached config) :=
  match allocates cached.phpMemory phpRoom with
  | none => some cached
  | some php =>
    let cached := phpStore cached php digest
    match allocates cached.entryMemory entryRoom with
    | none => some cached
    | some entry => do
      hold pid (← entryStore requestTime cached compiler.slot entry compiler.newEntry php) entry

variable (config)

inductive Action where
  | tick (seconds : Nat)
  | start (pid : Nat)
  | check (pid : Nat) (compiler : Compiler config)
  | lookup (pid : Nat) (digest : Option Digest) (memory : Option Nat) (bails : Bool)
  | store (pid : Nat) (compiled : Bool) (phpRoom entryRoom : Option Nat)
  | finish (pid : Nat)
  | unhold (pid : Nat)
  | gcExpires (pid : Nat)
  | gcDeletes (pid : Nat)
  | clear (pid : Nat)

variable {config}

namespace System

def setStatus (system : System config) (pid : Nat) (status : Status config) : System config :=
  { system with
    process := update system.process pid { system.process pid with status } }

def withCached (system : System config)
    (section' : Int → Cached config → Option (Cached config)) (pid : Nat) :
    Option (System config) := do
  some { system with cached := ← section' (system.process pid).requestTime system.cached }

/-- One action; one that a process is not ready for does nothing. -/
def act (system : System config) : Action config → Option (System config)
  | .tick seconds => some { system with clock := system.clock + seconds }
  | .start pid =>
    some { system with process := update system.process pid ⟨system.clock, .idle⟩ }
  | .check pid compiler =>
    match (system.process pid).status with
    | .idle =>
      if (system.process pid).requestTime - system.cached.compiling < 30 then some system
      else some (system.setStatus pid (.checked compiler))
    | _ => some system
  | .lookup pid digest memory bails =>
    match (system.process pid).status with
    | .checked compiler => do
      let (found, cached) ← PhpCache.lookup pid (system.process pid).requestTime compiler digest
        memory bails system.cached
      match found with
      | .done => some ({ system with cached }.setStatus pid .idle)
      | .caught => some ({ system with cached }.setStatus pid .stored)
      | .compile digest => some ({ system with cached }.setStatus pid (.compiling compiler digest))
    | _ => some system
  | .store pid compiled phpRoom entryRoom =>
    match (system.process pid).status with
    | .compiling compiler digest => do
      let cached ←
        if compiled then
          PhpCache.store pid (system.process pid).requestTime compiler digest phpRoom entryRoom
            system.cached
        else some system.cached
      some ({ system with cached }.setStatus pid .stored)
    | _ => some system
  | .finish pid =>
    match (system.process pid).status with
    | .stored =>
      some ({ system with cached := { system.cached with compiling := 0 } }.setStatus pid .idle)
    | _ => some system
  | .unhold pid => system.withCached (fun _ cached => unholds pid cached.holds cached) pid
  | .gcExpires pid => system.withCached PhpCache.gcExpires pid
  | .gcDeletes pid => system.withCached PhpCache.gcDeletes pid
  | .clear pid => system.withCached PhpCache.clear pid

def run (system : System config) : List (Action config) → Option (System config)
  | [] => some system
  | action :: actions => do (← system.act action).run actions

end System

end PhpExts.XCache.PhpCache
