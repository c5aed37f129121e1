import Mathlib

/-!
# The optimizer of XCache

The optimizer rewrites the op array of a function before the engine finishes it. A break or a
continue becomes a jump where leaving its loops frees nothing; then the oplines are split into
basic blocks, every jump operand and the try/catch table are made numbers of blocks, and these are
made opline numbers again.

Opline numbers fit in an `int`. What the code would read or write outside of its tables has no
result here.
-/

namespace PhpExts.XCache.Optimizer

inductive Opcode where
  | zendBrk
  | zendCont
  | zendSwitchFree
  | zendFree
  | zendHandleException
  | zendReturn
  | zendFastRet
  | zendGeneratorReturn
  | zendExit
  | zendGoto
  | zendJmp
  | zendFastCall
  | zendJmpznz
  | zendJmpz
  | zendJmpnz
  | zendJmpzEx
  | zendJmpnzEx
  | zendJmpSet
  | zendJmpSetVar
  | zendJmpNoCtor
  | zendNew
  | zendFeReset
  | zendFeFetch
  | zendCatch
  | other (code : Nat)
  deriving DecidableEq

inductive OpType where
  | isConst
  | isUnused
  | other (type : Nat)
  deriving DecidableEq

/-- `znode_op` with its type: an opline number, the number of a literal or that of a
variable. -/
structure Znode where
  type : OpType
  num : Int
  deriving DecidableEq

/-- `zend_op`. -/
structure Op where
  opcode : Opcode
  op1 : Znode
  op2 : Znode
  result : Znode
  extendedValue : Nat
  lineno : Nat
  deriving DecidableEq

/-- A literal: `IS_LONG`, or one of another type. -/
inductive Literal where
  | long (lval : Int)
  | other (type : Nat)
  deriving DecidableEq

/-- `zend_brk_cont_element`: a loop. -/
structure BrkCont where
  start : Int
  cont : Int
  brk : Int
  parent : Int
  deriving DecidableEq

/-- `zend_try_catch_element`. -/
structure TryCatch where
  tryOp : Nat
  catchOp : Nat
  finallyOp : Nat
  finallyEnd : Nat
  deriving DecidableEq

/-- `zend_op_array`; `isUserFunction` is `type == ZEND_USER_FUNCTION`. -/
structure OpArray where
  isUserFunction : Bool
  opcodes : List Op
  literals : List Literal
  brkContArray : Option (List BrkCont)
  tryCatchArray : List TryCatch
  deriving DecidableEq

/-- An element of a table under an `int`. -/
def entryAt {α : Type} (table : List α) (i : Int) : Option α :=
  if 0 ≤ i then table[i.toNat]? else none

/-- A `long` as an `int`. -/
def toInt (lval : Int) : Int := lval.bmod (2 ^ 32)

/-- A `ZEND_FREE` or a `ZEND_SWITCH_FREE` without `EXT_TYPE_FREE_ON_RETURN`. -/
def Op.frees (op : Op) : Bool :=
  (op.opcode = .zendSwitchFree ∨ op.opcode = .zendFree) ∧ ¬ op.extendedValue.testBit 2

/-! ## Breaks and continues -/

inductive Walk where
  | failure
  | reached (jmpTo : BrkCont) (canConvert : Bool)
  deriving DecidableEq

/-- The loop over the levels in `op_array_convert_switch`, with so many levels after this one:
`nest_levels` is one more. -/
def walkLevels (opcodes : List Op) (brkContArray : List BrkCont) : Nat → Int → Bool → Option Walk
  | 0, arrayOffset, canConvert =>
    if arrayOffset = -1 then some .failure
    else do
      let jmpTo ← entryAt brkContArray arrayOffset
      some (.reached jmpTo canConvert)
  | further + 1, arrayOffset, canConvert =>
    if arrayOffset = -1 then some .failure
    else do
      let jmpTo ← entryAt brkContArray arrayOffset
      let brkOpline ← entryAt opcodes jmpTo.brk
      walkLevels opcodes brkContArray further jmpTo.parent (canConvert && !brkOpline.frees)

def Op.toJmp (opline : Op) (jmpTo : BrkCont) : Op :=
  let num := if opline.opcode = .zendBrk then jmpTo.brk else jmpTo.cont
  { opline with
    opcode := .zendJmp
    op1 := { opline.op1 with num }
    op2 := { opline.op2 with type := .isUnused } }

/-- One turn of the loop in `op_array_convert_switch`: the new opline, or none on
`FAILURE`. -/
def convertOpline (opArray : OpArray) (brkContArray : List BrkCont) (opline : Op) :
    Option (Option Op) :=
  if opline.opcode = .zendBrk ∨ opline.opcode = .zendCont then
    if opline.op2.type ≠ .isConst then some none
    else do
      match ← entryAt opArray.literals opline.op2.num with
      | .other _ => some none
      | .long lval =>
        let nestLevels := toInt lval
        match ← walkLevels opArray.opcodes brkContArray (nestLevels - 1).toNat
            opline.op1.num true with
        | .failure => some none
        | .reached jmpTo canConvert =>
          some (some (if canConvert then opline.toJmp jmpTo else opline))
  else some (some opline)

/-- The loop in `op_array_convert_switch`, with whether it succeeds. -/
def convertFrom (brkContArray : List BrkCont) : List Nat → OpArray → Option (OpArray × Bool)
  | [], opArray => some (opArray, true)
  | i :: rest, opArray => do
      let opline ← opArray.opcodes[i]?
      match ← convertOpline opArray brkContArray opline with
      | none => some (opArray, false)
      | some opline =>
        convertFrom brkContArray rest { opArray with opcodes := opArray.opcodes.set i opline }

def opArrayConvertSwitch (opArray : OpArray) : Option (OpArray × Bool) :=
  match opArray.brkContArray with
  | none => some (opArray, true)
  | some brkContArray =>
    convertFrom brkContArray (List.range opArray.opcodes.length) opArray

/-! ## Where an opline goes -/

/-- `op_flowinfo_t`; -1 is `XC_OPNUM_INVALID`. -/
structure FlowInfo where
  jmpoutOp1 : Int
  jmpoutOp2 : Int
  jmpoutExt : Int
  fall : Bool
  deriving DecidableEq

def FlowInfo.init : FlowInfo := ⟨-1, -1, -1, false⟩

def opGetFlowinfo (opline : Op) : Option FlowInfo :=
  match opline.opcode with
  | .zendHandleException | .zendReturn | .zendFastRet | .zendGeneratorReturn | .zendExit =>
    some .init
  | .zendGoto | .zendJmp => some { FlowInfo.init with jmpoutOp1 := opline.op1.num }
  | .zendFastCall =>
    some { FlowInfo.init with
      jmpoutOp1 := opline.op1.num
      jmpoutOp2 := if opline.extendedValue ≠ 0 then opline.op2.num else -1 }
  | .zendJmpznz =>
    some { FlowInfo.init with
      jmpoutOp2 := opline.op2.num, jmpoutExt := opline.extendedValue }
  | .zendJmpz | .zendJmpnz | .zendJmpzEx | .zendJmpnzEx | .zendJmpSet | .zendJmpSetVar
  | .zendJmpNoCtor | .zendNew | .zendFeReset | .zendFeFetch =>
    some { FlowInfo.init with jmpoutOp2 := opline.op2.num, fall := true }
  | .zendCatch => some { FlowInfo.init with jmpoutExt := opline.extendedValue, fall := true }
  | .zendBrk | .zendCont | .zendSwitchFree | .zendFree | .other _ => none

def FlowInfo.jmpouts (fi : FlowInfo) : List Int :=
  [fi.jmpoutOp1, fi.jmpoutOp2, fi.jmpoutExt].filter (· ≠ -1)

def renumberOp (numbering : Int → Option Nat) (opline : Op) : Option Op :=
  match opGetFlowinfo opline with
  | none => some opline
  | some fi => do
      let opline ← if fi.jmpoutOp1 ≠ -1 then do
          let num ← numbering fi.jmpoutOp1
          some { opline with op1 := { opline.op1 with num } }
        else some opline
      let opline ← if fi.jmpoutOp2 ≠ -1 then do
          let num ← numbering fi.jmpoutOp2
          some { opline with op2 := { opline.op2 with num } }
        else some opline
      if fi.jmpoutExt ≠ -1 then do
        let extendedValue ← numbering fi.jmpoutExt
        some { opline with extendedValue }
      else some opline

/-- An element of the try/catch table under another numbering: `OPNUM_TO_BBID` and
`BBID_TO_OPNUM`. -/
def renumberTryCatch (numbering : Int → Option Nat) (element : TryCatch) : Option TryCatch := do
  let tryOp ← numbering element.tryOp
  let catchOp ← numbering element.catchOp
  let finallyOp ← numbering element.finallyOp
  some { element with tryOp, catchOp, finallyOp }

def markHead (heads : List Bool) (i : Int) : Option (List Bool) :=
  if 0 ≤ i ∧ i < heads.length then some (heads.set i.toNat true) else none

/-- The heads that the opline `i` of `count` makes: what it jumps to, and the opline behind
it. -/
def opHeads (count i : Nat) (opline : Op) : List Int :=
  match opGetFlowinfo opline with
  | none => []
  | some fi => fi.jmpouts ++ if i + 1 < count then [(i + 1 : Int)] else []

/-- The heads in the order in which `bbs_build_from` marks them. -/
def OpArray.heads (opArray : OpArray) : List Int :=
  0 :: (opArray.opcodes.mapIdx fun i opline => opHeads opArray.opcodes.length i opline).flatten ++
    opArray.tryCatchArray.flatMap fun element =>
      [(element.tryOp : Int), element.catchOp, element.finallyOp]

def bbids : Int → List Bool → List Int
  | _, [] => []
  | id, isBbHead :: rest =>
    let id := if isBbHead then id + 1 else id
    id :: bbids id rest

/-- `bb_t`: where it starts and how many oplines it has. -/
structure Bb where
  opnum : Nat
  count : Nat
  deriving DecidableEq

def Bb.last (bb : Bb) : Nat := bb.opnum + bb.count - 1

/-- Create the basic blocks, where `i` is the number of the next opline. -/
def buildBbs : Nat → Int → Nat → List Int → List Bb
  | start, _, i, [] => [⟨start, i - start⟩]
  | start, id, i, bbid :: rest =>
    if id = bbid then buildBbs start id (i + 1) rest
    else ⟨start, i - start⟩ :: buildBbs i bbid (i + 1) rest

def renumberBbs (numbering : Int → Option Nat) : List Bb → List Op → Option (List Op)
  | [], opcodes => some opcodes
  | bb :: rest, opcodes => do
      let last ← opcodes[bb.last]?
      let last ← renumberOp numbering last
      renumberBbs numbering rest (opcodes.set bb.last last)

def bbsBuildFrom (opArray : OpArray) : Option (List Bb × OpArray) := do
  let heads ← opArray.heads.foldlM markHead (List.replicate opArray.opcodes.length false)
  let oplineinfos := bbids (-1) heads
  let numbering (i : Int) : Option Nat := (entryAt oplineinfos i).map Int.toNat
  let tryCatchArray ← opArray.tryCatchArray.mapM (renumberTryCatch numbering)
  let bbs := buildBbs 0 0 1 oplineinfos.tail
  let opcodes ← renumberBbs numbering bbs opArray.opcodes
  some (bbs, { opArray with opcodes, tryCatchArray })

def bbsRestoreOpnum (bbs : List Bb) (opArray : OpArray) : Option OpArray := do
  let numbering (bbid : Int) : Option Nat := (entryAt bbs bbid).map Bb.opnum
  let opcodes ← renumberBbs numbering bbs opArray.opcodes
  let tryCatchArray ← opArray.tryCatchArray.mapM (renumberTryCatch numbering)
  some { opArray with opcodes, tryCatchArray }

def xcOptimizeOpArray (opArray : OpArray) : Option OpArray :=
  if ¬ opArray.isUserFunction then some opArray
  else do
    let (opArray, success) ← opArrayConvertSwitch opArray
    if success then do
      let (bbs, opArray) ← bbsBuildFrom opArray
      bbsRestoreOpnum bbs opArray
    else some opArray

def OpArray.loops (opArray : OpArray) : List BrkCont := opArray.brkContArray.getD []

/-- Unwinding in the engine, with so many levels after this one: the oplines whose variables are
freed, and the loop that is reached, if there are so many. -/
def OpArray.unwind (opArray : OpArray) : Nat → Int → List Op × Option BrkCont
  | 0, offset => ([], if offset = -1 then none else entryAt opArray.loops offset)
  | further + 1, offset =>
    match if offset = -1 then none else entryAt opArray.loops offset with
    | none => ([], none)
    | some loop =>
      let freed := (entryAt opArray.opcodes loop.brk).toList.filter Op.frees
      let rest := opArray.unwind further loop.parent
      (freed ++ rest.1, rest.2)

/-- The levels of a break or a continue where they are constant; the engine takes them as an
`int` too. -/
def OpArray.constantLevels (opArray : OpArray) (opline : Op) : Option Int :=
  match opline.op2.type, entryAt opArray.literals opline.op2.num with
  | .isConst, some (.long lval) => some (toInt lval)
  | _, _ => none

/-- What the engine's handlers read but for those of jumps, breaks and continues: the other
oplines and the tables. -/
structure View where
  opcodes : List (Option Op)
  literals : List Literal
  loops : List BrkCont
  tryCatchArray : List TryCatch

def OpArray.view (opArray : OpArray) : View where
  opcodes := opArray.opcodes.map fun opline =>
    if opline.opcode = .zendJmp ∨ opline.opcode = .zendBrk ∨ opline.opcode = .zendCont then none
    else some opline
  literals := opArray.literals
  loops := opArray.loops
  tryCatchArray := opArray.tryCatchArray

inductive Outcome (State : Type) where
  | next (opnum : Int) (state : State)
  | ends (state : State)

/-- The rest of the engine: how the variable of an opline is freed, the levels that are not
constant, and all other oplines. -/
structure Engine (State : Type) where
  free : Op → State → State
  levels : List Literal → Op → State → Int
  exec : View → Int → State → Outcome State → Prop

section

variable {State : Type} (engine : Engine State) (opArray : OpArray)

/-- A break or a continue: unwind, free, and go on at the loop that is reached; too many levels are
a fatal error. -/
def Engine.leave (opline : Op) (target : BrkCont → Int) (state : State) : Outcome State :=
  let nestLevels := (opArray.constantLevels opline).getD
    (engine.levels opArray.literals opline state)
  let unwound := opArray.unwind (nestLevels - 1).toNat opline.op1.num
  let state := unwound.1.foldl (fun state freed => engine.free freed state) state
  match unwound.2 with
  | none => .ends state
  | some loop => .next (target loop) state

def Engine.Step (opnum : Int) (state : State) (outcome : Outcome State) : Prop :=
  match entryAt opArray.opcodes opnum with
  | none => False
  | some opline =>
    match opline.opcode with
    | .zendJmp => outcome = .next opline.op1.num state
    | .zendBrk => outcome = engine.leave opArray opline BrkCont.brk state
    | .zendCont => outcome = engine.leave opArray opline BrkCont.cont state
    | _ => engine.exec opArray.view opnum state outcome

inductive Engine.Run (opnum : Int) (state : State) : Outcome State → Prop where
  | start : Engine.Run opnum state (.next opnum state)
  | step {opnum' : Int} {state' : State} {outcome : Outcome State} :
      Engine.Run opnum state (.next opnum' state') →
      engine.Step opArray opnum' state' outcome → Engine.Run opnum state outcome

end

/-! ## Well-formed op arrays -/

/-- Targets are oplines, loops and their parents are in the table, and constants are
literals. -/
structure WellFormed (opArray : OpArray) : Prop where
  nonempty : opArray.opcodes ≠ []
  jumps : ∀ opline ∈ opArray.opcodes, ∀ fi, opGetFlowinfo opline = some fi →
    ∀ target ∈ fi.jmpouts, 0 ≤ target ∧ target < opArray.opcodes.length
  tryCatch : ∀ element ∈ opArray.tryCatchArray, element.tryOp < opArray.opcodes.length ∧
    element.catchOp < opArray.opcodes.length ∧ element.finallyOp < opArray.opcodes.length
  loops : ∀ loop ∈ opArray.loops, (entryAt opArray.opcodes loop.brk).isSome ∧
    (entryAt opArray.opcodes loop.cont).isSome ∧
    (loop.parent = -1 ∨ (entryAt opArray.loops loop.parent).isSome)
  offsets : ∀ opline ∈ opArray.opcodes, opline.opcode = .zendBrk ∨ opline.opcode = .zendCont →
    opline.op1.num = -1 ∨ (entryAt opArray.loops opline.op1.num).isSome
  constants : ∀ opline ∈ opArray.opcodes, opline.opcode = .zendBrk ∨ opline.opcode = .zendCont →
    opline.op2.type = .isConst → (entryAt opArray.literals opline.op2.num).isSome

end PhpExts.XCache.Optimizer
