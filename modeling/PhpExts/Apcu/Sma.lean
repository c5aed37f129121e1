import Mathlib

/-!
# The shared memory allocator

A segment begins with its header, a dummy block of size 0, and ends with a sentinel.
Between them lie the blocks, each with its size, the size of the block in front of
it if that one is free, and the links of the free list, which goes from the dummy
through the free blocks to the sentinel.

`sma_allocate` takes the first block of the list that is large enough, whole or split
in two; `sma_deallocate` joins the block with free neighbours and puts it at the head
of the list.  The sums in which the caller's numbers take part are computed in
`size_t`; the others are bounded by the size of the segment.
-/

namespace PhpExts.Apcu.Sma

open Function (update)

/-- A sum in a 64-bit `size_t`. -/
def add64 (x y : Nat) : Nat := (x + y) % 2 ^ 64

/-- `ALIGNWORD(x)`, which is `8 * (1 + (x - 1) / 8)` in `size_t`. -/
def alignWord (x : Nat) : Nat := (8 * (1 + (x + 2 ^ 64 - 1) % 2 ^ 64 / 8)) % 2 ^ 64

/-- `ALIGNWORD(sizeof(block_t))`. -/
def blockSize : Nat := 32

def minBlockSize : Nat := 40

/-- A segment: where its dummy block lies, behind the aligned header, and its size.  A
segment has at least a megabyte, which the setting `apc.shm_size` sees to. -/
structure Layout where
  header : Nat
  segsize : Nat
  aligned : header % 8 = 0
  room : header + 4 * blockSize ≤ segsize
  word : segsize < 2 ^ 64

def Layout.start (layout : Layout) : Nat := layout.header + blockSize

def Layout.last (layout : Layout) : Nat := layout.segsize - 2 * blockSize

/-- `header->avail`, and the fields of the blocks by their offsets. -/
structure Segment where
  avail : Nat
  size : Nat → Nat
  prevSize : Nat → Nat
  fnext : Nat → Nat
  fprev : Nat → Nat

/-- The segment as `apc_sma_api_init` leaves it, over what was in memory. -/
def Layout.init (layout : Layout) (memory : Segment) : Segment where
  avail := layout.segsize - layout.header - blockSize - blockSize
  size := update (update (update memory.size layout.header 0)
    layout.start (layout.segsize - layout.header - blockSize - blockSize - blockSize)) layout.last 0
  prevSize := update (update (update memory.prevSize layout.header 0)
    layout.start 0) layout.last
      (layout.segsize - layout.header - blockSize - blockSize - blockSize)
  fnext := update (update (update memory.fnext layout.header
    layout.start) layout.start layout.last) layout.last 0
  fprev := update (update (update memory.fprev layout.header 0)
    layout.start layout.header) layout.last layout.start

/-- The loop of `sma_allocate`: the block before the first one in the list with
`realsize` bytes, if there is one among the next `fuel` blocks. -/
def findFit (segment : Segment) (realsize : Nat) : Nat → Nat → Option Nat
  | 0, _ => none
  | fuel + 1, prv =>
    let cur := segment.fnext prv
    if cur = 0 then none
    else if realsize ≤ segment.size cur then some prv
    else findFit segment realsize fuel cur

/-- `cur` is too small to split: unlink it. -/
def takeWhole (segment : Segment) (prv cur : Nat) : Segment where
  avail := segment.avail - segment.size cur
  size := segment.size
  prevSize := update segment.prevSize (cur + segment.size cur) 0
  fnext := update (update segment.fnext prv (segment.fnext cur)) cur 0
  fprev := update segment.fprev (segment.fnext cur) prv

/-- `cur` is split: `realsize` bytes are taken, and the rest, the block `nxt`, comes in
its place in the list. -/
def splitBlock (segment : Segment) (cur realsize : Nat) : Segment :=
  let nxt := cur + realsize
  let rest := segment.size cur - realsize
  { avail := segment.avail - realsize
    size := update (update segment.size cur realsize) nxt rest
    prevSize := update (update segment.prevSize nxt 0) (nxt + rest) rest
    fnext := update (update (update segment.fnext nxt
      (segment.fnext cur)) (segment.fprev cur) nxt) cur 0
    fprev := update (update segment.fprev nxt (segment.fprev cur))
      (segment.fnext cur) nxt }

/-- `realsize` of a request. -/
def realSize (size : Nat) : Nat := alignWord (add64 size blockSize)

/-- Whether a block of `blockBytes` is too small to split for `realsize` bytes. -/
def tooSmallToSplit (blockBytes realsize fragment : Nat) : Bool :=
  blockBytes = realsize ∨
    realsize < blockBytes ∧ blockBytes < add64 realsize (add64 minBlockSize fragment)

/-- `sma_allocate`: the offset of the memory; `none` is -1.  The list has no more blocks
than `avail` has bytes. -/
def smaAllocate (layout : Layout) (segment : Segment) (size fragment : Nat) :
    Segment × Option Nat :=
  let realsize := realSize size
  if segment.avail < realsize then (segment, none)
  else
    match findFit segment realsize (segment.avail + 1) layout.header with
    | none => (segment, none)
    | some prv =>
      let cur := segment.fnext prv
      if tooSmallToSplit (segment.size cur) realsize fragment then
        (takeWhole segment prv cur, some (cur + blockSize))
      else (splitBlock segment cur realsize, some (cur + blockSize))

/-- Take a block out of the free list, in the order in which `sma_deallocate` does it. -/
def unlinkBlock (segment : Segment) (block : Nat) : Segment :=
  { segment with
    fnext := update segment.fnext (segment.fprev block) (segment.fnext block)
    fprev := update segment.fprev (segment.fnext block) (segment.fprev block) }

def joinPrevious (segment : Segment) (cur : Nat) : Segment × Nat :=
  if segment.prevSize cur = 0 then (segment, cur)
  else
    let prv := cur - segment.prevSize cur
    let unlinked := unlinkBlock segment prv
    ({ unlinked with
      size := update segment.size prv (segment.size prv + segment.size cur) }, prv)

/-- The block behind is free: join the two.  `none` is a failed assertion. -/
def joinNext (segment : Segment) (cur : Nat) : Option Segment :=
  let nxt := cur + segment.size cur
  if segment.fnext nxt = 0 then some segment
  else if segment.prevSize (nxt + segment.size nxt) ≠ segment.size nxt then none
  else
    let unlinked := unlinkBlock segment nxt
    some { unlinked with
      size := update segment.size cur (segment.size cur + segment.size nxt) }

def insertBlock (layout : Layout) (segment : Segment) (cur : Nat) : Segment :=
  { segment with
    prevSize := update segment.prevSize (cur + segment.size cur) (segment.size cur)
    fnext := update (update segment.fnext cur (segment.fnext layout.header))
      layout.header cur
    fprev := update (update segment.fprev cur layout.header)
      (segment.fnext layout.header) cur }

/-- `sma_deallocate`; `none` is a failed assertion. -/
def smaDeallocate (layout : Layout) (segment : Segment) (offset : Nat) : Option Segment :=
  let cur := offset - blockSize
  let counted := { segment with avail := segment.avail + segment.size cur }
  let (joined, cur) := joinPrevious counted cur
  (joinNext joined cur).map fun segment => insertBlock layout segment cur

/-! ## A segment of a megabyte -/

/-- A segment of the smallest size, with its header. -/
def megabyte : Layout := ⟨72, 1048576, by decide, by decide, by decide⟩

def zeros : Segment := ⟨0, fun _ => 0, fun _ => 0, fun _ => 0, fun _ => 0⟩

end PhpExts.Apcu.Sma
