import PhpExts.XCache.Optimizer
import Mathlib

/-!
# Relocating op arrays in XCache

After pass two the operands of an op array are addresses: a literal operand holds the address of
an entry of the table of literals, and the operand of a jump that of an opline. XCache copies the
tables to shared memory when it stores a script and back, on the deep path, when it restores one;
the shallow path copies them, or runs the op array out of shared memory. Every copy has to point
the operands at the new tables, and each place that does so has a switch over the opcodes of its
own.

All of them do the same to an operand (`Op.mapOperands`): what points at a literal is one case,
what points at an opline another. From that every copy keeps the index of each operand
(`Relocates`).

Addresses are integers. The operand of an opline is a word of 64 bits that a number takes only the
lower half of.
-/

namespace PhpExts.XCache.Relocation

open PhpExts.XCache.Optimizer
open List (mem_cons not_mem_nil)

/-- `sizeof(zend_op)` and `sizeof(zend_literal)`. -/
structure Sizes where
  op : Int
  literal : Int
  op_pos : 0 < op
  literal_pos : 0 < literal

def bindTraits : Opcode := .other 155

structure Op where
  opcode : Opcode
  op1 : Int
  op2 : Int
  result : Int
  op1Type : OpType
  op2Type : OpType
  resultType : OpType
  extendedValue : Nat
  lineno : Nat
  handler : Int
  deriving DecidableEq

/-- `zend_literal`; the value is what the constant holds, wherever its bytes lie. -/
structure Literal where
  value : List Nat
  isRef : Bool
  refcount : Nat
  hashValue : Nat
  cacheSlot : Nat
  deriving DecidableEq

structure Tables where
  opcodes : Int
  literals : Int
  deriving DecidableEq

structure OpArray extends Tables where
  ops : List Op
  table : List Literal
  donePassTwo : Bool
  deriving DecidableEq

/-- `DST(op).constant = SRC(op).literal - src->literals`, where the constant has 32 bits, and then
`DST(op).literal` from it. -/
def copyLiteral (sizes : Sizes) (src dst word : Int) : Int :=
  dst + sizes.literal * ((word - src) / sizes.literal % 2 ^ 32)

def copyJump (sizes : Sizes) (src dst word : Int) : Int :=
  dst + sizes.op * ((word - src) / sizes.op)

/-- The `zend_op` processor; `fix` is `FIXPOINTER`. -/
def copyOp (sizes : Sizes) (fix : Int → Int) (src dst : Tables) (op : Op) : Op :=
  let op1 := if op.op1Type = .isConst then copyLiteral sizes src.literals dst.literals op.op1
    else op.op1
  let op2 := if op.op2Type = .isConst then copyLiteral sizes src.literals dst.literals op.op2
    else op.op2
  match op.opcode with
  | .zendGoto | .zendJmp | .zendFastCall =>
    { op with op1 := fix (copyJump sizes src.opcodes dst.opcodes op.op1), op2 := op2 }
  | .zendJmpz | .zendJmpnz | .zendJmpzEx | .zendJmpnzEx | .zendJmpSet | .zendJmpSetVar =>
    { op with op1 := op1, op2 := fix (copyJump sizes src.opcodes dst.opcodes op.op2) }
  | _ => { op with op1 := op1, op2 := op2 }

/-- The `zend_op_array` processor where it copies both tables to fresh memory: the literals first,
and their address is fixed before the oplines use it, which that of the oplines is not. -/
def copyOpArray (sizes : Sizes) (fix : Int → Int) (fresh : Tables) (src : OpArray) : OpArray :=
  let literals := if src.literals = 0 then 0 else fix fresh.literals
  { literals := literals
    table := if src.literals = 0 then [] else src.table
    opcodes := if src.opcodes = 0 then 0 else fix fresh.opcodes
    ops := if src.opcodes = 0 then []
      else src.ops.map (copyOp sizes fix src.toTables ⟨fresh.opcodes, literals⟩)
    donePassTwo := src.donePassTwo }

/-- All but restoring write to the source: the second operand of `BIND_TRAITS` is unused. -/
def dropTraits (op : Op) : Op :=
  if op.opcode = bindTraits then { op with op2Type := .isUnused } else op

/-- Storing: the pass that sums up sizes is the first to write to the source. An address in the
segment is read `diff` bytes away from where it is written. -/
def store (sizes : Sizes) (diff : Int) (fresh : Tables) (src : OpArray) : OpArray :=
  copyOpArray sizes (fun address => address + diff) fresh
    { src with ops := src.ops.map dropTraits }

/-- The `zend_uint` of the operand. -/
def number (word : Int) : Int := word % 2 ^ 32

def jumpsByOp1 : Opcode → Bool
  | .zendGoto | .zendJmp | .zendFastCall => true
  | _ => false

def jumpsByOp2 : Opcode → Bool
  | .zendJmpz | .zendJmpnz | .zendJmpzEx | .zendJmpnzEx | .zendJmpSet | .zendJmpSetVar => true
  | _ => false

def Op.mapOperands (literal jump : Int → Int) (op : Op) : Op :=
  { op with
    op1 := if jumpsByOp1 op.opcode then jump op.op1
      else if op.op1Type = .isConst then literal op.op1 else op.op1
    op2 := if jumpsByOp2 op.opcode then jump op.op2
      else if op.op2Type = .isConst then literal op.op2 else op.op2 }

structure Op.Single (op : Op) : Prop where
  op1 : jumpsByOp1 op.opcode → op.op1Type ≠ .isConst
  op2 : jumpsByOp2 op.opcode → op.op2Type ≠ .isConst

def Op.inPlace (literal jump : Int → Int) (op : Op) : Op :=
  let op := if op.op1Type = .isConst then { op with op1 := literal op.op1 } else op
  let op := if op.op2Type = .isConst then { op with op2 := literal op.op2 } else op
  match op.opcode with
  | .zendGoto | .zendJmp | .zendFastCall => { op with op1 := jump op.op1 }
  | .zendJmpz | .zendJmpnz | .zendJmpzEx | .zendJmpnzEx | .zendJmpSet | .zendJmpSetVar =>
    { op with op2 := jump op.op2 }
  | _ => op

theorem Op.Single.mapOperands {op : Op} (single : op.Single) (literal jump : Int → Int) :
    (op.mapOperands literal jump).Single :=
  ⟨single.op1, single.op2⟩

/-- The word is the address of the entry `index` of a table at `base`. -/
def PointsAt (base size : Int) (length : Nat) (word : Int) (index : Nat) : Prop :=
  index < length ∧ word = base + size * index

theorem PointsAt.unique {base size word : Int} {length length' index index' : Nat}
    (positive : 0 < size) (here : PointsAt base size length word index)
    (there : PointsAt base size length' word index') : index = index' := by
  have same : size * (index : Int) = size * (index' : Int) :=
    Int.add_left_cancel (here.2.symm.trans there.2)
  exact Int.ofNat.inj (Int.eq_of_mul_eq_mul_left (Int.ne_of_gt positive) same)

theorem PointsAt.index_eq {base size word : Int} {length index : Nat} (positive : 0 < size)
    (here : PointsAt base size length word index) : (word - base) / size = index := by
  rw [here.2, Int.add_comm, Int.add_sub_cancel, Int.mul_ediv_cancel_left _ (Int.ne_of_gt positive)]

/-- An operand of one op array and what became of it in another: the words point at entries of the
same index, each in the tables of its own op array. -/
structure SameOperand (sizes : Sizes) (src dst : OpArray) (jumps isLiteral : Prop)
    (word word' : Int) : Prop where
  jump : jumps → ∃ index, PointsAt src.opcodes sizes.op src.ops.length word index ∧
    PointsAt dst.opcodes sizes.op dst.ops.length word' index
  literal : isLiteral → ∃ index,
    PointsAt src.literals sizes.literal src.table.length word index ∧
      PointsAt dst.literals sizes.literal dst.table.length word' index

structure SameIndex (sizes : Sizes) (src dst : OpArray) (op op' : Op) : Prop where
  opcode : op'.opcode = op.opcode
  op1Type : op'.op1Type = .isConst ↔ op.op1Type = .isConst
  op2Type : op'.op2Type = .isConst ↔ op.op2Type = .isConst
  op1 : SameOperand sizes src dst (jumpsByOp1 op.opcode) (op.op1Type = .isConst) op.op1 op'.op1
  op2 : SameOperand sizes src dst (jumpsByOp2 op.opcode) (op.op2Type = .isConst) op.op2 op'.op2

def Relocates (sizes : Sizes) (src dst : OpArray) : Prop :=
  List.Forall₂ (SameIndex sizes src dst) src.ops dst.ops

section

variable {sizes : Sizes} {src mid dst : OpArray}

theorem SameOperand.trans {jumps jumps' isLiteral isLiteral' : Prop} {word word' word'' : Int}
    (first : SameOperand sizes src mid jumps isLiteral word word')
    (second : SameOperand sizes mid dst jumps' isLiteral' word' word'')
    (jump : jumps → jumps') (literal : isLiteral → isLiteral') :
    SameOperand sizes src dst jumps isLiteral word word'' where
  jump := by
    intro jumped
    obtain ⟨index, here, there⟩ := first.jump jumped
    obtain ⟨index', here', there'⟩ := second.jump (jump jumped)
    obtain rfl := there.unique sizes.op_pos here'
    exact ⟨index, here, there'⟩
  literal := by
    intro const
    obtain ⟨index, here, there⟩ := first.literal const
    obtain ⟨index', here', there'⟩ := second.literal (literal const)
    obtain rfl := there.unique sizes.literal_pos here'
    exact ⟨index, here, there'⟩

theorem SameIndex.trans {op op' op'' : Op} (first : SameIndex sizes src mid op op')
    (second : SameIndex sizes mid dst op' op'') : SameIndex sizes src dst op op'' where
  opcode := second.opcode.trans first.opcode
  op1Type := second.op1Type.trans first.op1Type
  op2Type := second.op2Type.trans first.op2Type
  op1 := by
    apply first.op1.trans second.op1
    · rw [first.opcode]
      exact id
    · exact first.op1Type.mpr
  op2 := by
    apply first.op2.trans second.op2
    · rw [first.opcode]
      exact id
    · exact first.op2Type.mpr

theorem Relocates.trans (first : Relocates sizes src mid) (second : Relocates sizes mid dst) :
    Relocates sizes src dst := by
  unfold Relocates at first second ⊢
  generalize src.ops = ops at first ⊢
  generalize mid.ops = ops' at first second
  generalize dst.ops = ops'' at second ⊢
  induction first generalizing ops'' with
  | nil =>
    cases second
    exact .nil
  | cons head _ ih =>
    cases second with
    | cons head' tail' => exact .cons (head.trans head') (ih _ tail')

/-! ## Op arrays whose operands point at their own tables -/

structure Op.Linked (sizes : Sizes) (opArray : OpArray) (op : Op) : Prop where
  points : SameIndex sizes opArray opArray op op
  single : op.Single

structure OpArray.Linked (sizes : Sizes) (opArray : OpArray) : Prop where
  ops : ∀ op ∈ opArray.ops, op.Linked sizes opArray
  noOpcodes : opArray.opcodes = 0 → opArray.ops = []
  noLiterals : opArray.literals = 0 → opArray.table = []
  few : opArray.table.length < 2 ^ 32

theorem SameOperand.right {jumps jumps' isLiteral isLiteral' : Prop} {word word' : Int}
    (same : SameOperand sizes src dst jumps isLiteral word word')
    (jump : jumps' → jumps) (literal : isLiteral' → isLiteral) :
    SameOperand sizes dst dst jumps' isLiteral' word' word' where
  jump := by
    intro jumped
    obtain ⟨index, _, there⟩ := same.jump (jump jumped)
    exact ⟨index, there, there⟩
  literal := by
    intro const
    obtain ⟨index, _, there⟩ := same.literal (literal const)
    exact ⟨index, there, there⟩

theorem SameIndex.linked {op op' : Op} (same : SameIndex sizes src dst op op')
    (single : op.Single) : op'.Linked sizes dst where
  points :=
    { opcode := rfl
      op1Type := Iff.rfl
      op2Type := Iff.rfl
      op1 := same.op1.right (by rw [same.opcode]; exact id) same.op1Type.mp
      op2 := same.op2.right (by rw [same.opcode]; exact id) same.op2Type.mp }
  single :=
    { op1 := by
        rw [same.opcode, ne_eq, same.op1Type]
        exact single.op1
      op2 := by
        rw [same.opcode, ne_eq, same.op2Type]
        exact single.op2 }

theorem Relocates.linked (relocates : Relocates sizes src dst) (linked : src.Linked sizes) :
    ∀ op ∈ dst.ops, op.Linked sizes dst := by
  have single : ∀ op ∈ src.ops, op.Single := fun op mem => (linked.ops op mem).single
  unfold Relocates at relocates
  generalize src.ops = ops at relocates single
  generalize dst.ops = ops' at relocates ⊢
  induction relocates with
  | nil =>
    intro op mem
    cases mem
  | cons head _ ih =>
    exact List.forall_mem_cons.mpr
      ⟨head.linked (single _ (.head _)), ih (fun op mem => single op (.tail _ mem))⟩

/-! ## Copies move what the operands point at -/

structure Moves (sizes : Sizes) (src dst : OpArray) (literal jump : Int → Int) : Prop where
  jump : ∀ index : Nat, index < src.ops.length →
    PointsAt dst.opcodes sizes.op dst.ops.length (jump (src.opcodes + sizes.op * index)) index
  literal : ∀ index : Nat, index < src.table.length →
    PointsAt dst.literals sizes.literal dst.table.length
      (literal (src.literals + sizes.literal * index)) index

theorem Moves.sameOperand {literal jump : Int → Int} (moves : Moves sizes src dst literal jump)
    {jumps : Bool} {type : OpType} {word : Int}
    (points : SameOperand sizes src src jumps (type = .isConst) word word)
    (single : jumps → type ≠ .isConst) : SameOperand sizes src dst jumps (type = .isConst) word
      (if jumps then jump word else if type = .isConst then literal word else word) where
  jump := by
    intro jumped
    obtain ⟨index, here, _⟩ := points.jump jumped
    rw [if_pos jumped]
    refine ⟨index, here, ?_⟩
    rw [here.2]
    exact moves.jump index here.1
  literal := by
    intro const
    obtain ⟨index, here, _⟩ := points.literal const
    rw [if_neg (fun jumped => single jumped const), if_pos const]
    refine ⟨index, here, ?_⟩
    rw [here.2]
    exact moves.literal index here.1

theorem Moves.sameIndex {literal jump : Int → Int} (moves : Moves sizes src dst literal jump)
    {op : Op} (linked : op.Linked sizes src) :
    SameIndex sizes src dst op (op.mapOperands literal jump) where
  opcode := rfl
  op1Type := Iff.rfl
  op2Type := Iff.rfl
  op1 := moves.sameOperand linked.points.op1 linked.single.op1
  op2 := moves.sameOperand linked.points.op2 linked.single.op2

theorem Moves.relocates {literal jump : Int → Int} (moves : Moves sizes src dst literal jump)
    (linked : src.Linked sizes) (copied : dst.ops = src.ops.map (Op.mapOperands literal jump)) :
    Relocates sizes src dst := by
  unfold Relocates
  rw [copied, List.forall₂_map_right_iff, List.forall₂_same]
  intro op mem
  exact moves.sameIndex (linked.ops op mem)

theorem Relocates.refl (linked : src.Linked sizes) : Relocates sizes src src :=
  List.forall₂_same.mpr (fun op mem => (linked.ops op mem).points)

/-- What pass two leaves: the literal operands and the targets of the jumps are addresses of entries
of the tables, which are two arrays in memory and so share no address. `last_literal` is an `int`,
`last` a `zend_uint`. -/
structure AfterPassTwo (sizes : Sizes) (opArray : OpArray) : Prop where
  done : opArray.donePassTwo = true
  literal1 : ∀ op ∈ opArray.ops, op.op1Type = .isConst →
    ∃ index, PointsAt opArray.literals sizes.literal opArray.table.length op.op1 index
  literal2 : ∀ op ∈ opArray.ops, op.op2Type = .isConst →
    ∃ index, PointsAt opArray.literals sizes.literal opArray.table.length op.op2 index
  jump1 : ∀ op ∈ opArray.ops, jumpsByOp1 op.opcode →
    ∃ index, PointsAt opArray.opcodes sizes.op opArray.ops.length op.op1 index
  jump2 : ∀ op ∈ opArray.ops, jumpsByOp2 op.opcode →
    ∃ index, PointsAt opArray.opcodes sizes.op opArray.ops.length op.op2 index
  apart : ∀ word literal opline,
    PointsAt opArray.literals sizes.literal opArray.table.length word literal →
      ¬ PointsAt opArray.opcodes sizes.op opArray.ops.length word opline
  noOpcodes : opArray.opcodes = 0 → opArray.ops = []
  noLiterals : opArray.literals = 0 → opArray.table = []
  refs : ∀ literal ∈ opArray.table, literal.isRef = true ∧ literal.refcount = 2
  lastLiteral : opArray.table.length < 2 ^ 31
  last : opArray.ops.length < 2 ^ 32

theorem AfterPassTwo.linked (after : AfterPassTwo sizes src) : src.Linked sizes where
  ops := by
    intro op mem
    constructor
    · refine ⟨rfl, Iff.rfl, Iff.rfl, ⟨?_, ?_⟩, ⟨?_, ?_⟩⟩
      · intro jumped
        obtain ⟨index, here⟩ := after.jump1 op mem jumped
        exact ⟨index, here, here⟩
      · intro const
        obtain ⟨index, here⟩ := after.literal1 op mem const
        exact ⟨index, here, here⟩
      · intro jumped
        obtain ⟨index, here⟩ := after.jump2 op mem jumped
        exact ⟨index, here, here⟩
      · intro const
        obtain ⟨index, here⟩ := after.literal2 op mem const
        exact ⟨index, here, here⟩
    · constructor
      · intro jumped const
        obtain ⟨opline, atOpline⟩ := after.jump1 op mem jumped
        obtain ⟨literal, atLiteral⟩ := after.literal1 op mem const
        exact after.apart op.op1 literal opline atLiteral atOpline
      · intro jumped const
        obtain ⟨opline, atOpline⟩ := after.jump2 op mem jumped
        obtain ⟨literal, atLiteral⟩ := after.literal2 op mem const
        exact after.apart op.op2 literal opline atLiteral atOpline
  noOpcodes := after.noOpcodes
  noLiterals := after.noLiterals
  few := Nat.lt_trans after.lastLiteral (by decide)

end

/-! ### A loop -/

end PhpExts.XCache.Relocation
