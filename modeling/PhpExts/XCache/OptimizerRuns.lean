import Mathlib.Data.List.Forall2
import PhpExts.XCache.OptimizerBlocks

/-!
# What the optimizer preserves

The conversion changes breaks and continues into jumps and nothing else (`Related`), whether it
comes to the end or gives up before. The walk over the levels is the engine's unwinding: it can
convert where unwinding frees nothing. So the engine takes the same steps
(`xcOptimizeOpArray_preserves`).
-/

namespace PhpExts.XCache.Optimizer

open Option (toList_some bind_eq_bind bind_some)

/-! ## The conversion -/

/-- An opline is left as it is, or it is a break or a continue of constant levels whose
unwinding frees nothing, and it jumps to where this leads. -/
def Converted (opArray : OpArray) (opline opline' : Op) : Prop :=
  opline' = opline ∨
    (opline.opcode = .zendBrk ∨ opline.opcode = .zendCont) ∧ ∃ nestLevels loop,
      opArray.constantLevels opline = some nestLevels ∧
      opArray.unwind (nestLevels - 1).toNat opline.op1.num = ([], some loop) ∧
      opline' = opline.toJmp loop

structure Related (opArray opArray' : OpArray) : Prop where
  tables : opArray' = { opArray with opcodes := opArray'.opcodes }
  length : opArray'.opcodes.length = opArray.opcodes.length
  oplines : ∀ i : Nat, ∀ opline opline', opArray.opcodes[i]? = some opline →
    opArray'.opcodes[i]? = some opline' → Converted opArray opline opline'

section

variable {α : Type} {table : List α} {i : Int} {x : α}

theorem mem_of_entryAt (found : entryAt table i = some x) : x ∈ table := by
  rw [entryAt] at found
  split at found
  · exact List.mem_of_getElem? found
  · cases found

theorem entryAt_isSome : (entryAt table i).isSome ↔ 0 ≤ i ∧ i < table.length := by
  rw [entryAt]
  split
  · rw [isSome_getElem?]
    omega
  · rename_i negative
    simp only [Option.isSome_none, Bool.false_eq_true, false_iff, not_and]
    exact fun natural => absurd natural negative

end

section

variable {opArray opArray' : OpArray}

theorem Related.refl (opArray : OpArray) : Related opArray opArray :=
  ⟨rfl, rfl, fun _ _ _ here here' => .inl (Option.some.inj (here'.symm.trans here))⟩

theorem Related.loops (related : Related opArray opArray') : opArray'.loops = opArray.loops := by
  rw [related.tables]
  rfl

theorem Related.literals (related : Related opArray opArray') :
    opArray'.literals = opArray.literals := by
  rw [related.tables]

theorem Related.entryAt (related : Related opArray opArray') (i : Int) :
    entryAt opArray.opcodes i = none ∧ entryAt opArray'.opcodes i = none ∨
      ∃ opline opline', entryAt opArray.opcodes i = some opline ∧
        entryAt opArray'.opcodes i = some opline' ∧ Converted opArray opline opline' := by
  have length := related.length
  simp only [Optimizer.entryAt]
  split
  · by_cases inside : i.toNat < opArray.opcodes.length
    · have inside' : i.toNat < opArray'.opcodes.length := length ▸ inside
      have here := List.getElem?_eq_getElem inside
      have here' := List.getElem?_eq_getElem inside'
      exact .inr ⟨_, _, here, here', related.oplines _ _ _ here here'⟩
    · exact .inl ⟨List.getElem?_eq_none (by omega), List.getElem?_eq_none (by omega)⟩
  · exact .inl ⟨rfl, rfl⟩

theorem Converted.eq {opline opline' : Op} (converted : Converted opArray opline opline')
    (keeps : opline'.opcode ≠ .zendJmp ∨ opline.frees) : opline' = opline := by
  rcases converted with same | ⟨isLeave, _, loop, -, -, rfl⟩
  · exact same
  · exfalso
    rcases keeps with other | frees
    · exact other rfl
    · rcases isLeave with isBrk | isCont
      · simp [Op.frees, isBrk] at frees
      · simp [Op.frees, isCont] at frees

theorem Converted.frees {opline opline' : Op} (converted : Converted opArray opline opline') :
    opline'.frees = opline.frees ∧ (opline'.frees → opline' = opline) := by
  by_cases isJmp : opline'.opcode = .zendJmp
  · have notFrees : opline'.frees = false := by simp [Op.frees, isJmp]
    refine ⟨?_, fun frees => absurd frees (by simp [notFrees])⟩
    by_cases frees : opline.frees
    · rw [converted.eq (.inr frees)]
    · rw [notFrees]
      exact (Bool.eq_false_iff.mpr frees).symm
  · have same := converted.eq (.inl isJmp)
    exact ⟨congrArg Op.frees same, fun _ => same⟩

theorem Related.freed (related : Related opArray opArray') (i : Int) :
    (Optimizer.entryAt opArray'.opcodes i).toList.filter Op.frees =
      (Optimizer.entryAt opArray.opcodes i).toList.filter Op.frees := by
  rcases related.entryAt i with ⟨none, none'⟩ | ⟨opline, opline', here, here', converted⟩
  · rw [none, none']
  · obtain ⟨frees, same⟩ := converted.frees
    rw [here, here', toList_some, toList_some, List.filter_singleton,
      List.filter_singleton, ← frees]
    cases isFree : opline'.frees with
    | false => rfl
    | true => rw [same isFree]

theorem Related.unwind (related : Related opArray opArray') (further : Nat) (offset : Int) :
    opArray'.unwind further offset = opArray.unwind further offset := by
  induction further generalizing offset with
  | zero => simp only [OpArray.unwind, related.loops]
  | succ further ih => simp only [OpArray.unwind, related.loops, related.freed, ih]

theorem Related.constantLevels (related : Related opArray opArray') (opline : Op) :
    opArray'.constantLevels opline = opArray.constantLevels opline := by
  rw [OpArray.constantLevels, related.literals, OpArray.constantLevels]

theorem Related.set (related : Related opArray opArray') {i : Nat} {opline opline' : Op}
    (here : opArray.opcodes[i]? = some opline) (converted : Converted opArray opline opline') :
    Related opArray { opArray' with opcodes := opArray'.opcodes.set i opline' } := by
  refine ⟨?_, by rw [List.length_set]; exact related.length,
    fun j other other' isOther isOther' => ?_⟩
  · rw [related.tables]
  · by_cases same : i = j
    · subst same
      obtain rfl := Option.some.inj (here.symm.trans isOther)
      have bound : i < opArray'.opcodes.length :=
        related.length ▸ (List.getElem?_eq_some_iff.mp here).1
      rw [List.getElem?_set_self bound] at isOther'
      cases isOther'
      exact converted
    · rw [List.getElem?_set_ne same] at isOther'
      exact related.oplines j other other' isOther isOther'

end

/-! ## The walk over the levels -/

section

variable {opArray opArray' : OpArray}

def OpArray.Offset (opArray : OpArray) (offset : Int) : Prop :=
  offset = -1 ∨ (entryAt opArray.loops offset).isSome

theorem unwind_mem {further : Nat} {offset : Int} {loop : BrkCont}
    (reached : (opArray.unwind further offset).2 = some loop) : loop ∈ opArray.loops := by
  induction further generalizing offset with
  | zero =>
    simp only [OpArray.unwind] at reached
    split at reached
    · cases reached
    · exact mem_of_entryAt reached
  | succ further ih =>
    simp only [OpArray.unwind] at reached
    split at reached
    · cases reached
    · exact ih reached

theorem ne_of_entryAt {α : Type} {table : List α} {i : Int} {entry : α}
    (found : entryAt table i = some entry) : i ≠ -1 := by
  rintro rfl
  cases found

theorem walkLevels_unwind (inside : ∀ loop ∈ opArray.loops,
      (entryAt opArray.opcodes loop.brk).isSome ∧ opArray.Offset loop.parent)
    (further : Nat) {offset : Int} (isOffset : opArray.Offset offset) (canConvert : Bool) :
    ∃ walk, walkLevels opArray.opcodes opArray.loops further offset canConvert = some walk ∧
      ∀ jmpTo can, walk = .reached jmpTo can → (opArray.unwind further offset).2 = some jmpTo ∧
        (can = true ↔ canConvert = true ∧ (opArray.unwind further offset).1 = []) := by
  induction further generalizing offset canConvert with
  | zero =>
    rcases isOffset with rfl | isLoop
    · exact ⟨.failure, rfl, nofun⟩
    · obtain ⟨loop, found⟩ := Option.isSome_iff_exists.mp isLoop
      have valid := ne_of_entryAt found
      refine ⟨.reached loop canConvert, ?_, ?_⟩
      · simp [walkLevels, valid, found]
      · rintro jmpTo can ⟨⟩
        simp [OpArray.unwind, valid, found]
  | succ further ih =>
    rcases isOffset with rfl | isLoop
    · exact ⟨.failure, rfl, nofun⟩
    · obtain ⟨loop, found⟩ := Option.isSome_iff_exists.mp isLoop
      have valid := ne_of_entryAt found
      obtain ⟨isOpline, isParent⟩ := inside loop (mem_of_entryAt found)
      obtain ⟨brkOpline, isBrkOpline⟩ := Option.isSome_iff_exists.mp isOpline
      obtain ⟨walk, walks, reaches⟩ := ih isParent (canConvert && !brkOpline.frees)
      refine ⟨walk, ?_, fun jmpTo can isReached => ?_⟩
      · simp only [walkLevels, if_neg valid, found, isBrkOpline, bind_eq_bind,
          bind_some, walks]
      · obtain ⟨reached, frees⟩ := reaches jmpTo can isReached
        simp only [OpArray.unwind, if_neg valid, found, isBrkOpline, toList_some]
        refine ⟨reached, frees.trans ?_⟩
        cases isFree : brkOpline.frees <;> simp [isFree]

end

/-! ## The loop over the oplines -/

section

variable {opArray opArray' : OpArray}

theorem WellFormed.walks (wellFormed : WellFormed opArray) (related : Related opArray opArray') :
    ∀ loop ∈ opArray'.loops,
      (entryAt opArray'.opcodes loop.brk).isSome ∧ opArray'.Offset loop.parent := by
  simp only [OpArray.Offset, related.loops]
  intro loop mem
  obtain ⟨isOpline, -, isParent⟩ := wellFormed.loops loop mem
  rw [entryAt_isSome, ← related.length] at isOpline
  exact ⟨entryAt_isSome.mpr isOpline, isParent⟩

theorem convertOpline_spec (wellFormed : WellFormed opArray) (related : Related opArray opArray')
    {i : Nat} {opline opline' : Op} (here : opArray.opcodes[i]? = some opline)
    (here' : opArray'.opcodes[i]? = some opline') : ∃ result,
      convertOpline opArray' opArray'.loops opline' = some result ∧
        ∀ new, result = some new → Converted opArray opline new := by
  have converted := related.oplines i _ _ here here'
  have mem := List.mem_of_getElem? here
  by_cases isLeave : opline'.opcode = .zendBrk ∨ opline'.opcode = .zendCont
  · have notJmp : opline'.opcode ≠ .zendJmp := by
      rcases isLeave with isBrk | isCont
      · simp [isBrk]
      · simp [isCont]
    obtain rfl := converted.eq (.inl notJmp)
    simp only [convertOpline, if_pos isLeave]
    by_cases isConst : opline'.op2.type = .isConst
    · obtain ⟨literal, found⟩ := Option.isSome_iff_exists.mp
        (wellFormed.constants _ mem isLeave isConst)
      rw [if_neg (not_not.mpr isConst), related.literals, found]
      cases literal with
      | other type => exact ⟨none, rfl, by simp⟩
      | long lval =>
        have levels : opArray.constantLevels opline' = some (toInt lval) := by
          simp only [OpArray.constantLevels, isConst, found]
        have isOffset : opArray'.Offset opline'.op1.num := by
          rw [OpArray.Offset, related.loops]
          exact wellFormed.offsets _ mem isLeave
        obtain ⟨walk, walks, reaches⟩ := walkLevels_unwind (wellFormed.walks related)
          (toInt lval - 1).toNat isOffset true
        simp only [bind_eq_bind, bind_some, walks]
        cases walk with
        | failure => exact ⟨none, rfl, by simp⟩
        | reached jmpTo can =>
          obtain ⟨reached, frees⟩ := reaches jmpTo can rfl
          rw [related.unwind] at reached frees
          refine ⟨_, rfl, fun new isNew => ?_⟩
          cases isNew
          split
          · rename_i converts
            exact .inr ⟨isLeave, _, jmpTo, levels,
              Prod.ext (frees.mp converts).2 reached, rfl⟩
          · exact .inl rfl
    · rw [if_pos isConst]
      exact ⟨none, rfl, by simp⟩
  · refine ⟨some opline', if_neg isLeave, fun new isNew => ?_⟩
    exact Option.some.inj isNew ▸ converted

theorem convertFrom_spec (wellFormed : WellFormed opArray) {indices : List Nat}
    (inside : ∀ i ∈ indices, i < opArray.opcodes.length) (related : Related opArray opArray') :
    ∃ result success, convertFrom opArray.loops indices opArray' = some (result, success) ∧
      Related opArray result := by
  induction indices generalizing opArray' with
  | nil => exact ⟨opArray', true, rfl, related⟩
  | cons i indices ih =>
    have bound := inside i (.head _)
    have bound' : i < opArray'.opcodes.length := related.length ▸ bound
    have here := List.getElem?_eq_getElem bound
    have here' := List.getElem?_eq_getElem bound'
    obtain ⟨new, converts, converted⟩ := convertOpline_spec wellFormed related here here'
    rw [related.loops] at converts
    simp only [convertFrom, here', bind_eq_bind, bind_some, converts]
    cases new with
    | none => exact ⟨opArray', false, rfl, related⟩
    | some new =>
      exact ih (fun other mem => inside other (.tail _ mem))
        (related.set here (converted new rfl))

theorem opArrayConvertSwitch_spec (wellFormed : WellFormed opArray) : ∃ result success,
    opArrayConvertSwitch opArray = some (result, success) ∧ Related opArray result := by
  rw [opArrayConvertSwitch]
  cases array : opArray.brkContArray with
  | none => exact ⟨opArray, true, rfl, .refl opArray⟩
  | some loops =>
    have isLoops : opArray.loops = loops := by rw [OpArray.loops, array, Option.getD_some]
    obtain rfl := isLoops
    exact convertFrom_spec wellFormed (fun i mem => List.mem_range.mp mem)
      (.refl opArray)

theorem Related.jumpsInside (wellFormed : WellFormed opArray) (related : Related opArray opArray') :
    JumpsInside opArray' := by
  refine ⟨fun empty => ?_, fun opline' mem fi flow target isTarget => ?_, ?_⟩
  · have length := related.length
    rw [empty] at length
    exact wellFormed.nonempty (List.length_eq_zero_iff.mp length.symm)
  · rw [related.length]
    obtain ⟨i, bound', rfl⟩ := List.getElem_of_mem mem
    have bound : i < opArray.opcodes.length := related.length ▸ bound'
    have here := List.getElem?_eq_getElem bound
    rcases related.oplines i _ _ here (List.getElem?_eq_getElem bound') with
      same | ⟨-, _, loop, -, reached, isJmp⟩
    · rw [same] at flow
      exact wellFormed.jumps _ (List.getElem_mem bound) fi flow target isTarget
    · obtain ⟨isBrk, isCont, -⟩ := wellFormed.loops loop (unwind_mem (congrArg Prod.snd reached))
      rw [entryAt_isSome] at isBrk isCont
      rw [isJmp] at flow
      cases flow
      simp only [FlowInfo.jmpouts, FlowInfo.init, Op.toJmp, List.mem_filter, List.mem_cons,
        List.not_mem_nil, or_false, decide_eq_true_eq] at isTarget
      split at isTarget <;> omega
  · rw [related.length, related.tables]
    exact wellFormed.tryCatch

end

section

variable {State : Type} {opArray opArray' : OpArray}

theorem Related.view (related : Related opArray opArray') : opArray'.view = opArray.view := by
  have oplines : opArray'.view.opcodes = opArray.view.opcodes := by
    refine List.ext_getElem? fun i => ?_
    simp only [OpArray.view]
    rw [List.getElem?_map, List.getElem?_map, ← entryAt_natCast, ← entryAt_natCast]
    rcases related.entryAt i with ⟨none, none'⟩ | ⟨opline, opline', here, here', converted⟩
    · rw [none, none']
    · rw [here, here']
      rcases converted with rfl | ⟨isLeave, _, loop, -, -, rfl⟩
      · rfl
      · simp [isLeave, Op.toJmp]
  rw [OpArray.view, OpArray.view, View.mk.injEq]
  exact ⟨oplines, related.literals, related.loops, by rw [related.tables]⟩

theorem Related.leave (related : Related opArray opArray') (engine : Engine State) (opline : Op)
    (target : BrkCont → Int) (state : State) :
    engine.leave opArray' opline target state = engine.leave opArray opline target state := by
  simp only [Engine.leave, related.constantLevels, related.literals, related.unwind]

theorem leave_of_unwind (engine : Engine State) {opline : Op} {nestLevels : Int} {loop : BrkCont}
    (levels : opArray.constantLevels opline = some nestLevels)
    (reached : opArray.unwind (nestLevels - 1).toNat opline.op1.num = ([], some loop))
    (target : BrkCont → Int) (state : State) :
    engine.leave opArray opline target state = .next (target loop) state := by
  simp only [Engine.leave, levels, Option.getD_some, reached, List.foldl_nil]

theorem Related.step (related : Related opArray opArray') (engine : Engine State) :
    engine.Step opArray' = engine.Step opArray := by
  funext opnum state outcome
  rw [Engine.Step, Engine.Step, related.view]
  rcases related.entryAt opnum with ⟨none, none'⟩ | ⟨opline, opline', here, here', converted⟩
  · rw [none, none']
  · rw [here, here']
    simp only [related.leave]
    rcases converted with rfl | ⟨isBrk | isCont, _, loop, levels, reached, rfl⟩
    · rfl
    · simp [isBrk, Op.toJmp, leave_of_unwind engine levels reached]
    · simp [isCont, Op.toJmp, leave_of_unwind engine levels reached]

theorem run_of_step {engine : Engine State} (same : engine.Step opArray' = engine.Step opArray)
    {opnum : Int} {state : State} {outcome : Outcome State}
    (run : engine.Run opArray' opnum state outcome) : engine.Run opArray opnum state outcome := by
  induction run with
  | start => exact .start
  | step _ step ih => exact .step ih (same ▸ step)

end

/-! ## The optimizer -/

theorem xcOptimizeOpArray_related {opArray : OpArray} (wellFormed : WellFormed opArray) :
    ∃ opArray', xcOptimizeOpArray opArray = some opArray' ∧ Related opArray opArray' := by
  rw [xcOptimizeOpArray]
  split
  · exact ⟨opArray, rfl, .refl opArray⟩
  · obtain ⟨result, success, converts, related⟩ := opArrayConvertSwitch_spec wellFormed
    rw [converts]
    cases success with
    | false => exact ⟨result, rfl, related⟩
    | true =>
      obtain ⟨bbs, built, builds, restores⟩ :=
        bbsRestoreOpnum_bbsBuildFrom (related.jumpsInside wellFormed)
      refine ⟨result, ?_, related⟩
      simp only [bind_eq_bind, bind_some, if_true, builds, restores]

/-- **The optimizer preserves the executions of every well-formed op array.** It changes
nothing but breaks and continues, into jumps to the opline that unwinding reaches, and only where
unwinding frees nothing. -/
theorem xcOptimizeOpArray_preserves {opArray : OpArray} (wellFormed : WellFormed opArray) :
    ∃ opArray', xcOptimizeOpArray opArray = some opArray' ∧
      opArray' = { opArray with opcodes := opArray'.opcodes } ∧
      List.Forall₂ (Converted opArray) opArray.opcodes opArray'.opcodes ∧
      ∀ (State : Type) (engine : Engine State),
        engine.Step opArray' = engine.Step opArray ∧
        ∀ opnum state outcome, engine.Run opArray' opnum state outcome ↔
          engine.Run opArray opnum state outcome := by
  obtain ⟨opArray', optimized, related⟩ := xcOptimizeOpArray_related wellFormed
  refine ⟨opArray', optimized, related.tables, ?_, fun State engine => ?_⟩
  · refine List.forall₂_iff_get.mpr ⟨related.length.symm, fun i bound bound' => ?_⟩
    exact related.oplines i _ _ (List.getElem?_eq_getElem bound) (List.getElem?_eq_getElem bound')
  · have same := related.step engine
    exact ⟨same, fun _ _ _ => ⟨run_of_step same, run_of_step same.symm⟩⟩

def opline (opcode : Opcode) (num1 num2 : Int) : Op :=
  ⟨opcode, ⟨.isUnused, num1⟩, ⟨.isConst, num2⟩, ⟨.isUnused, 0⟩, 0, 1⟩

/-- `while ($a) { while ($b) { break 2; } }`. -/
def nestedLoops : OpArray where
  isUserFunction := true
  opcodes := [opline .zendJmpz 0 5, opline .zendJmpz 0 4, opline .zendBrk 1 0,
    opline .zendJmp 1 0, opline .zendJmp 0 0, opline .zendReturn 0 0]
  literals := [.long 2]
  brkContArray := some [⟨0, 0, 5, -1⟩, ⟨1, 1, 4, 0⟩]
  tryCatchArray := []

theorem nestedLoops_wellFormed : WellFormed nestedLoops where
  nonempty := by decide
  jumps := by
    intro op mem fi flow
    simp only [nestedLoops, List.mem_cons, List.not_mem_nil, or_false] at mem
    rcases mem with rfl | rfl | rfl | rfl | rfl | rfl <;> cases flow <;> decide
  tryCatch := by decide
  loops := by decide
  offsets := by decide
  constants := by decide

theorem xcOptimizeOpArray_preserves_nestedLoops :
    ∃ opArray', xcOptimizeOpArray nestedLoops = some opArray' ∧
      opArray' = { nestedLoops with opcodes := opArray'.opcodes } ∧
      List.Forall₂ (Converted nestedLoops) nestedLoops.opcodes opArray'.opcodes ∧
      ∀ (State : Type) (engine : Engine State),
        engine.Step opArray' = engine.Step nestedLoops ∧
        ∀ opnum state outcome, engine.Run opArray' opnum state outcome ↔
          engine.Run nestedLoops opnum state outcome :=
  xcOptimizeOpArray_preserves nestedLoops_wellFormed

example : (xcOptimizeOpArray nestedLoops).map OpArray.opcodes = some (nestedLoops.opcodes.set 2
      ((opline .zendBrk 1 0).toJmp ⟨0, 0, 5, -1⟩)) := by decide

end PhpExts.XCache.Optimizer
