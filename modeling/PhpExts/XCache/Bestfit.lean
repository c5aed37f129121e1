import Mathlib

/-!
# The best-fit allocator of XCache

An allocator lies at an address `base` and gives out the memory behind its own fields.  A
block starts with its size; behind that lies the address of the next free block while it is
free, and the owner's memory while it is not.  `memory` holds the words by their addresses,
the block `headblock` among them, whose `next` is the first free block.
-/

namespace PhpExts.XCache.Bestfit

/-- A sum in `xc_memsize_t`. -/
def word (n : Nat) : Nat := n % 2 ^ 64

def ulongMax : Nat := 2 ^ 64 - 1

/-- `ALIGN(n)`. -/
def align (n : Nat) : Nat := word (8 * ((n + 2 ^ 64 - 1) % 2 ^ 64 / 8) + 8)

/-- `BLOCK_HEADER_SIZE()`. -/
def headerSize : Nat := 8

/-- `sizeof(xc_allocator_bestfit_block_t)`. -/
def blockStruct : Nat := 16

/-- `MINSIZE`: the allocator's own fields and one block behind them. -/
def minSize : Nat := 48 + blockStruct

/-- `realsize` of a request. -/
def realSize (size : Nat) : Nat := align (word (headerSize + size))

/-- The conversion to `int`. -/
def toInt (n : Nat) : Int := (n : Int).bmod (2 ^ 32)

/-- `xc_allocator_bestfit_t` at `base`. -/
structure Allocator where
  base : Nat
  size : Nat
  avail : Nat
  memory : Nat → Nat

namespace Allocator

/-- The block whose `next` is the first free block. -/
def headblock (allocator : Allocator) : Nat := allocator.base + 32

def start (allocator : Allocator) : Nat := allocator.base + 48

/-- Where the last block ends: a block struct is left behind it. -/
def stop (allocator : Allocator) : Nat := allocator.base + allocator.size - blockStruct

end Allocator

/-- `block->next`. -/
def next (memory : Nat → Nat) (block : Nat) : Nat := memory (block + 8)

/-- `block->next = address`. -/
def setNext (memory : Nat → Nat) (block address : Nat) : Nat → Nat :=
  Function.update memory (block + 8) address

/-- `block->size = size`. -/
def setSize (memory : Nat → Nat) (block size : Nat) : Nat → Nat :=
  Function.update memory block size

def blockSetup (memory : Nat → Nat) (block size address : Nat) : Nat → Nat :=
  setNext (setSize memory block size) block address

/-- `xc_allocator_bestfit_init`, over what was in memory. -/
def init (base size : Nat) (memory : Nat → Nat) : Option Allocator :=
  if size < minSize then none
  else
    some {
      base
      size
      avail := size - minSize
      memory := blockSetup (blockSetup memory (base + 32) 0 (base + 48)) (base + 48)
        (size - minSize) 0 }

/-- The loop of `xc_allocator_bestfit_malloc` behind `prev`, with the block before the best one
so far and its size; `none` when the list does not end within `fuel` blocks. -/
def search (memory : Nat → Nat) (realsize : Nat) :
    Nat → Nat → Option Nat → Nat → Option (Option Nat)
  | 0, _, _, _ => none
  | fuel + 1, prev, b, minsize =>
    let cur := next memory prev
    if cur = 0 then some b
    -- a perfect fit ends the search
    else if memory cur = realsize then some (some prev)
    else if word (blockStruct + realsize) < memory cur ∧ memory cur < minsize then
      search memory realsize fuel cur (some prev) (memory cur)
    else search memory realsize fuel cur b minsize

/-- The block behind `prev` is taken, whole where it fits and split otherwise. -/
def take (allocator : Allocator) (realsize prev : Nat) : Nat × Allocator :=
  let memory := allocator.memory
  let cur := next memory prev
  let avail := allocator.avail - realsize
  if memory cur = realsize then
    let memory := setNext memory prev (next memory cur)
    (cur + headerSize, { allocator with avail, memory })
  else
    let newb := cur + realsize
    let rest := memory cur - realsize
    let memory := blockSetup memory newb rest (next memory cur)
    let memory := setNext (setSize memory cur realsize) prev newb
    (cur + headerSize, { allocator with avail, memory })

/-- `xc_allocator_bestfit_malloc`: what it returns, and the allocator after it. -/
def malloc (allocator : Allocator) (size : Nat) : Option (Option Nat × Allocator) :=
  let realsize := realSize size
  if allocator.avail < realsize then some (none, allocator)
  else do
    match ← search allocator.memory realsize (allocator.size + 1) allocator.headblock none
        ulongMax with
    | none => some (none, allocator)
    | some prev =>
      let (p, allocator) := take allocator realsize prev
      some (some p, allocator)

/-- The first loop of `xc_allocator_bestfit_free`: the free block right before `cur`. -/
def findBefore (memory : Nat → Nat) (cur : Nat) : Nat → Nat → Option Nat
  | 0, _ => none
  | fuel + 1, b =>
    if next memory b ≠ 0 ∧ next memory b < cur then findBefore memory cur fuel (next memory b)
    else some b

/-- `cur` takes in the block `b` right behind it. -/
def takeIn (memory : Nat → Nat) (cur b : Nat) : Nat → Nat :=
  setNext (setSize memory cur (memory cur + memory b)) cur (next memory b)

/-- `combine prev|cur`. -/
def combinePrev (memory : Nat → Nat) (b cur : Nat) : (Nat → Nat) × Nat :=
  if b + memory b = cur then (takeIn memory b cur, b) else (memory, cur)

/-- `combine cur|next`. -/
def combineNext (memory : Nat → Nat) (cur : Nat) : Nat → Nat :=
  let b := next memory cur
  if cur + memory cur = b then takeIn memory cur b else memory

/-- `xc_allocator_bestfit_free`: the size that it returns, and the allocator after it. -/
def free (allocator : Allocator) (p : Nat) : Option (Nat × Allocator) := do
  let cur := p - headerSize
  let b ← findBefore allocator.memory cur (allocator.size + 1) allocator.headblock
  let memory := setNext allocator.memory cur (next allocator.memory b)
  let memory := setNext memory b cur
  let size := toInt (memory cur)
  let avail := ((allocator.avail + size) % 2 ^ 64).toNat
  let (memory, cur) := combinePrev memory b cur
  let memory := combineNext memory cur
  some ((size % 2 ^ 64).toNat, { allocator with avail, memory })

inductive Call where
  | malloc (size : Nat)
  | free (p : Nat)
  | write (address value : Nat)

structure System where
  allocator : Allocator
  live : List (Nat × Nat)

namespace System

def step (system : System) : Call → Option System
  | .malloc size => do
      let (p, allocator) ← malloc system.allocator size
      some ⟨allocator, p.elim system.live fun p => (p, size) :: system.live⟩
  | .free p => do
      let (_, allocator) ← free system.allocator p
      some ⟨allocator, system.live.filter fun block => block.1 ≠ p⟩
  | .write address value =>
    some ⟨{ system.allocator with
      memory := Function.update system.allocator.memory address value }, system.live⟩

def run (system : System) (calls : List Call) : Option System := calls.foldlM step system

def Permitted (system : System) : Call → Prop
  | .malloc size => size + 15 < 2 ^ 64
  | .free p => p ∈ system.live.map Prod.fst
  | .write address _ => address % 8 = system.allocator.base % 8 ∧
      ∃ block ∈ system.live, block.1 ≤ address ∧ address < block.1 + block.2

/-- A freed block has room for its struct, or nothing lies behind it, and its size is an
`int`. -/
def Sensible (system : System) : Call → Prop
  | .free p =>
    let size := system.allocator.memory (p - headerSize)
    size < 2 ^ 31 ∧ (blockStruct ≤ size ∨ p - headerSize + size = system.allocator.stop)
  | _ => True

instance (system : System) : DecidablePred system.Permitted
  | .malloc _ => inferInstanceAs (Decidable (_ < _))
  | .free _ => inferInstanceAs (Decidable (_ ∈ _))
  | .write _ _ => inferInstanceAs (Decidable (_ ∧ _))

instance (system : System) : DecidablePred system.Sensible
  | .malloc _ => .isTrue trivial
  | .free _ => inferInstanceAs (Decidable (_ ∧ _))
  | .write _ _ => .isTrue trivial

def EachCall (condition : System → Call → Prop) (system : System) : List Call → Prop
  | [] => True
  | call :: calls => condition system call ∧
      match system.step call with
      | some system' => EachCall condition system' calls
      | none => True

instance EachCall.decidable (condition : System → Call → Prop)
    [∀ system call, Decidable (condition system call)] (system : System) (calls : List Call) :
    Decidable (EachCall condition system calls) :=
  match calls with
  | [] => .isTrue trivial
  | call :: calls =>
    have : Decidable (match system.step call with
        | some system' => EachCall condition system' calls
        | none => True) :=
      match system.step call with
      | some system' => EachCall.decidable condition system' calls
      | none => .isTrue trivial
    inferInstanceAs (Decidable (_ ∧ _))

end System

end PhpExts.XCache.Bestfit
