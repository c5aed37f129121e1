import PhpExts.XCache.Optimizer

/-!
# Blocks and back

Every jump operand of the last opline of a block leads to the head of a block, and the number of
that block leads back: making the operands numbers of blocks and these opline numbers again
changes nothing (`bbsRestoreOpnum_bbsBuildFrom`).
-/

namespace PhpExts.XCache.Optimizer

open List (length_cons map_cons mem_cons)
open Option (bind_eq_bind bind_some map_some)

theorem entryAt_natCast {α : Type} (table : List α) (i : Nat) : entryAt table i = table[i]? := by
  simp [entryAt]

theorem markHeads_spec {marks : List Int} {heads : List Bool}
    (inside : ∀ mark ∈ marks, 0 ≤ mark ∧ mark < heads.length) : ∃ heads',
      marks.foldlM markHead heads = some heads' ∧ heads'.length = heads.length ∧
      (∀ i : Nat, heads[i]? = some true → heads'[i]? = some true) ∧
      ∀ mark ∈ marks, heads'[mark.toNat]? = some true := by
  induction marks generalizing heads with
  | nil => exact ⟨heads, rfl, rfl, fun _ isHead => isHead, nofun⟩
  | cons mark marks ih =>
    have bounds := inside mark (.head _)
    obtain ⟨heads', result, length, stays, marked⟩ := @ih (heads.set mark.toNat true) (by
      simpa using fun other mem => inside other (List.mem_cons_of_mem _ mem))
    have here : (heads.set mark.toNat true)[mark.toNat]? = some true :=
      List.getElem?_set_self (by omega)
    refine ⟨heads', ?_, by simpa using length, fun i isHead => stays i ?_, fun other mem => ?_⟩
    · simp only [List.foldlM_cons, markHead, if_pos bounds, bind_eq_bind,
        bind_some, result]
    · by_cases same : mark.toNat = i
      · exact same ▸ here
      · rwa [List.getElem?_set_ne same]
    · rcases List.mem_cons.mp mem with rfl | later
      · exact stays _ here
      · exact marked other later

theorem bbids_length (id : Int) (heads : List Bool) : (bbids id heads).length = heads.length := by
  induction heads generalizing id with
  | nil => rfl
  | cons _ _ ih => rw [bbids, length_cons, length_cons, ih]

theorem buildBbs_first (start : Nat) (id : Int) (i : Nat) (infos : List Int) :
    ∃ bb rest, buildBbs start id i infos = bb :: rest ∧ bb.opnum = start := by
  induction infos generalizing i with
  | nil => exact ⟨_, [], rfl, rfl⟩
  | cons bbid infos ih =>
    rw [buildBbs]
    split
    · exact ih (i + 1)
    · exact ⟨_, _, rfl, rfl⟩

theorem buildBbs_head {heads : List Bool} {start i j : Nat} {id : Int}
    (isHead : heads[j]? = some true) : ∃ n : Nat, (bbids id heads)[j]? = some (id + 1 + n) ∧
      ∃ bb, (buildBbs start id i (bbids id heads))[n + 1]? = some bb ∧ bb.opnum = i + j := by
  induction heads generalizing start i j id with
  | nil => cases isHead
  | cons first heads ih =>
    cases first with
    | false =>
      cases j with
      | zero => cases isHead
      | succ j =>
        obtain ⟨n, info, bb, isBb, opnum⟩ := @ih start (i + 1) j id isHead
        refine ⟨n, info, bb, ?_, by omega⟩
        simpa [bbids, buildBbs] using isBb
    | true =>
      have new : id ≠ id + 1 := by omega
      cases j with
      | zero =>
        obtain ⟨bb, rest, isFirst, opnum⟩ :=
          buildBbs_first i (id + 1) (i + 1) (bbids (id + 1) heads)
        refine ⟨0, by simp [bbids], bb, ?_, opnum⟩
        simp [bbids, buildBbs, new, isFirst]
      | succ j =>
        obtain ⟨n, info, bb, isBb, opnum⟩ := @ih i (i + 1) j (id + 1) isHead
        refine ⟨n + 1, ?_, bb, ?_, by omega⟩
        · simp only [bbids, if_true, List.getElem?_cons_succ, info]
          congr 1
          omega
        · simpa [bbids, buildBbs, new] using isBb

theorem buildBbs_lasts {start i : Nat} (id : Int) (infos : List Int) (before : start < i) :
    ((buildBbs start id i infos).map Bb.last).Pairwise (· < ·) ∧
      ∀ last ∈ (buildBbs start id i infos).map Bb.last, i ≤ last + 1 ∧ last < i + infos.length := by
  induction infos generalizing start id i with
  | nil =>
    simp only [buildBbs, map_cons, List.map_nil, List.pairwise_singleton,
      List.mem_singleton, forall_eq, Bb.last, true_and, List.length_nil]
    omega
  | cons bbid infos ih =>
    rw [buildBbs]
    split
    · obtain ⟨sorted, bounds⟩ := @ih start (i + 1) id (by omega)
      refine ⟨sorted, fun last mem => ?_⟩
      have bound := bounds last mem
      rw [length_cons]
      omega
    · obtain ⟨sorted, bounds⟩ := @ih i (i + 1) bbid (by omega)
      rw [map_cons, List.pairwise_cons, List.forall_mem_cons]
      refine ⟨⟨fun last mem => ?_, sorted⟩, ?_, fun last mem => ?_⟩
      · have bound := bounds last mem
        simp only [Bb.last]
        omega
      · simp only [Bb.last, length_cons]
        omega
      · have bound := bounds last mem
        rw [length_cons]
        omega

def Back (numbering back : Int → Option Nat) (target : Int) : Prop :=
  ∃ number opnum : Nat, numbering target = some number ∧ back number = some opnum ∧
    (opnum : Int) = target

theorem renumberOp_back {numbering back : Int → Option Nat} {opline : Op}
    (targets : ∀ fi, opGetFlowinfo opline = some fi → ∀ target ∈ fi.jmpouts,
      Back numbering back target) : ∃ opline', renumberOp numbering opline = some opline' ∧
      renumberOp back opline' = some opline := by
  obtain ⟨opcode, ⟨type1, num1⟩, ⟨type2, num2⟩, result, extended, lineno⟩ := opline
  have natural (n : Nat) : (n : Int) ≠ -1 := by omega
  cases opcode with
  | zendBrk | zendCont | zendSwitchFree | zendFree | other => exact ⟨_, rfl, rfl⟩
  | zendHandleException | zendReturn | zendFastRet | zendGeneratorReturn | zendExit =>
    exact ⟨_, rfl, rfl⟩
  | zendGoto | zendJmp =>
    by_cases invalid : num1 = -1
    · subst invalid
      exact ⟨_, rfl, rfl⟩
    · obtain ⟨number, opnum, forth, isBack, rfl⟩ := targets _ rfl num1 (by
        simp [FlowInfo.jmpouts, FlowInfo.init, invalid])
      simp [renumberOp, opGetFlowinfo, FlowInfo.init, forth, isBack, natural]
  | zendFastCall =>
    have first : num1 = -1 ∨ Back numbering back num1 := by
      rw [or_iff_not_imp_left]
      exact fun valid => targets _ rfl num1 (by simp [FlowInfo.jmpouts, FlowInfo.init, valid])
    have second (caught : extended ≠ 0) : num2 = -1 ∨ Back numbering back num2 := by
      rw [or_iff_not_imp_left]
      exact fun valid => targets _ rfl num2 (by
        simp [FlowInfo.jmpouts, FlowInfo.init, valid, caught])
    by_cases caught : extended = 0
    · rcases first with rfl | ⟨number, opnum, forth, isBack, rfl⟩
      all_goals simp [renumberOp, opGetFlowinfo, FlowInfo.init, *]
    · rcases first with rfl | ⟨number, opnum, forth, isBack, rfl⟩
      all_goals
        rcases second caught with rfl | ⟨number', opnum', forth', isBack', rfl⟩
        all_goals simp [renumberOp, opGetFlowinfo, FlowInfo.init, *]
  | zendJmpznz =>
    obtain ⟨number', opnum', forth', isBack', same⟩ := targets _ rfl extended (by
      simp [FlowInfo.jmpouts, FlowInfo.init, natural])
    obtain rfl := Int.ofNat_inj.mp same
    by_cases invalid : num2 = -1
    · subst invalid
      simp [renumberOp, opGetFlowinfo, FlowInfo.init, forth', isBack', natural]
    · obtain ⟨number, opnum, forth, isBack, rfl⟩ := targets _ rfl num2 (by
        simp [FlowInfo.jmpouts, FlowInfo.init, invalid])
      simp [renumberOp, opGetFlowinfo, FlowInfo.init, forth, isBack, forth', isBack', natural]
  | zendJmpz | zendJmpnz | zendJmpzEx | zendJmpnzEx | zendJmpSet | zendJmpSetVar
  | zendJmpNoCtor | zendNew | zendFeReset | zendFeFetch =>
    by_cases invalid : num2 = -1
    · subst invalid
      exact ⟨_, rfl, rfl⟩
    · obtain ⟨number, opnum, forth, isBack, rfl⟩ := targets _ rfl num2 (by
        simp [FlowInfo.jmpouts, FlowInfo.init, invalid])
      simp [renumberOp, opGetFlowinfo, FlowInfo.init, forth, isBack, natural]
  | zendCatch =>
    obtain ⟨number, opnum, forth, isBack, same⟩ := targets _ rfl extended (by
      simp [FlowInfo.jmpouts, FlowInfo.init, natural])
    obtain rfl := Int.ofNat_inj.mp same
    simp [renumberOp, opGetFlowinfo, FlowInfo.init, forth, isBack, natural]

theorem renumberTryCatch_back {numbering back : Int → Option Nat} {element : TryCatch}
    (tryOp : Back numbering back element.tryOp) (catchOp : Back numbering back element.catchOp)
    (finallyOp : Back numbering back element.finallyOp) :
    ∃ element', renumberTryCatch numbering element = some element' ∧
      renumberTryCatch back element' = some element := by
  obtain ⟨tryBb, tryOpnum, forth, isBack, same⟩ := tryOp
  obtain ⟨catchBb, catchOpnum, forth', isBack', same'⟩ := catchOp
  obtain ⟨finallyBb, finallyOpnum, forth'', isBack'', same''⟩ := finallyOp
  refine ⟨{ element with tryOp := tryBb, catchOp := catchBb, finallyOp := finallyBb }, ?_, ?_⟩
  · simp [renumberTryCatch, forth, forth', forth'']
  · simp [renumberTryCatch, isBack, isBack', isBack'', Int.ofNat_inj.mp same,
      Int.ofNat_inj.mp same', Int.ofNat_inj.mp same'']

theorem mapM_back {α : Type} {forth back : α → Option α} {xs : List α}
    (each : ∀ x ∈ xs, ∃ y, forth x = some y ∧ back y = some x) :
    ∃ ys, xs.mapM forth = some ys ∧ ys.mapM back = some xs := by
  induction xs with
  | nil => exact ⟨[], rfl, rfl⟩
  | cons x xs ih =>
    obtain ⟨y, isForth, isBack⟩ := each x (.head _)
    obtain ⟨ys, areForth, areBack⟩ := ih fun other mem =>
      each other (List.mem_cons_of_mem _ mem)
    refine ⟨y :: ys, ?_, ?_⟩
    · simp [List.mapM_cons, isForth, areForth]
    · simp [List.mapM_cons, isBack, areBack]

section

variable {numbering back : Int → Option Nat} {bbs : List Bb} {opcodes opcodes' : List Op}
  {i : Nat}

theorem renumberBbs_other (result : renumberBbs numbering bbs opcodes = some opcodes')
    (other : i ∉ bbs.map Bb.last) : opcodes'[i]? = opcodes[i]? := by
  induction bbs generalizing opcodes with
  | nil =>
    cases result
    rfl
  | cons bb bbs ih =>
    obtain ⟨last, -, result⟩ := Option.bind_eq_some_iff.mp result
    obtain ⟨last', -, result⟩ := Option.bind_eq_some_iff.mp result
    rw [map_cons, mem_cons, not_or] at other
    rw [ih result other.2]
    exact List.getElem?_set_ne (Ne.symm other.1)

theorem renumberBbs_set (result : renumberBbs numbering bbs opcodes = some opcodes')
    (other : i ∉ bbs.map Bb.last) (opline : Op) :
    renumberBbs numbering bbs (opcodes.set i opline) = some (opcodes'.set i opline) := by
  induction bbs generalizing opcodes with
  | nil =>
    cases result
    rfl
  | cons bb bbs ih =>
    obtain ⟨last, isLast, result⟩ := Option.bind_eq_some_iff.mp result
    obtain ⟨last', renumbered, result⟩ := Option.bind_eq_some_iff.mp result
    rw [map_cons, mem_cons, not_or] at other
    have isLast' : (opcodes.set i opline)[bb.last]? = some last :=
      (List.getElem?_set_ne other.1).trans isLast
    simp only [renumberBbs, isLast', renumbered, bind_eq_bind, bind_some]
    rw [List.set_comm _ _ other.1]
    exact ih result other.2

theorem renumberBbs_back (distinct : (bbs.map Bb.last).Nodup)
    (each : ∀ bb ∈ bbs, ∃ opline opline', opcodes[bb.last]? = some opline ∧
      renumberOp numbering opline = some opline' ∧ renumberOp back opline' = some opline) :
    ∃ opcodes', renumberBbs numbering bbs opcodes = some opcodes' ∧
      renumberBbs back bbs opcodes' = some opcodes := by
  induction bbs generalizing opcodes with
  | nil => exact ⟨opcodes, rfl, rfl⟩
  | cons bb bbs ih =>
    obtain ⟨opline, opline', isLast, isForth, isBack⟩ := each bb (.head _)
    rw [map_cons, List.nodup_cons] at distinct
    obtain ⟨opcodes', areForth, areBack⟩ := @ih (opcodes.set bb.last opline') distinct.2 (by
      intro other mem
      obtain ⟨last, last', isLast, both⟩ := each other (List.mem_cons_of_mem _ mem)
      refine ⟨last, last', ?_, both⟩
      rw [List.getElem?_set_ne, isLast]
      exact fun same => distinct.1 (same ▸ List.mem_map_of_mem mem))
    obtain ⟨inside, rfl⟩ := List.getElem?_eq_some_iff.mp isLast
    have last' : opcodes'[bb.last]? = some opline' := by
      rw [renumberBbs_other areForth distinct.1]
      exact List.getElem?_set_self inside
    have restored := renumberBbs_set areBack distinct.1 opcodes[bb.last]
    rw [List.set_set, List.set_getElem_self] at restored
    refine ⟨opcodes', ?_, ?_⟩
    · simp only [renumberBbs, isLast, isForth, bind_eq_bind, bind_some, areForth]
    · simp only [renumberBbs, last', isBack, bind_eq_bind, bind_some, restored]

end

/-! ## The blocks of an op array -/

structure JumpsInside (opArray : OpArray) : Prop where
  nonempty : opArray.opcodes ≠ []
  jumps : ∀ opline ∈ opArray.opcodes, ∀ fi, opGetFlowinfo opline = some fi →
    ∀ target ∈ fi.jmpouts, 0 ≤ target ∧ target < opArray.opcodes.length
  tryCatch : ∀ element ∈ opArray.tryCatchArray, element.tryOp < opArray.opcodes.length ∧
    element.catchOp < opArray.opcodes.length ∧ element.finallyOp < opArray.opcodes.length

variable {opArray : OpArray}

theorem mem_opHeads {count i : Nat} {opline : Op} {mark : Int} :
    mark ∈ opHeads count i opline ↔ ∃ fi, opGetFlowinfo opline = some fi ∧
      (mark ∈ fi.jmpouts ∨ i + 1 < count ∧ mark = i + 1) := by
  rw [opHeads]
  cases opGetFlowinfo opline with
  | none => simp
  | some fi =>
    by_cases more : i + 1 < count
    · simp [more]
    · simp [more]

theorem JumpsInside.heads (inside : JumpsInside opArray) :
    ∀ mark ∈ opArray.heads, 0 ≤ mark ∧ mark < opArray.opcodes.length := by
  have positive : 0 < opArray.opcodes.length := List.length_pos_iff.mpr inside.nonempty
  intro mark mem
  rcases List.mem_append.mp mem with mem | mem
  · rcases List.mem_cons.mp mem with rfl | mem
    · omega
    · obtain ⟨marks, isMarks, mem⟩ := List.mem_flatten.mp mem
      obtain ⟨i, bound, rfl⟩ := List.mem_mapIdx.mp isMarks
      obtain ⟨fi, flow, target | ⟨more, rfl⟩⟩ := mem_opHeads.mp mem
      · exact inside.jumps _ (List.getElem_mem bound) fi flow mark target
      · omega
  · obtain ⟨element, isElement, mem⟩ := List.mem_flatMap.mp mem
    have bounds := inside.tryCatch element isElement
    simp only [mem_cons, List.not_mem_nil, or_false] at mem
    omega

theorem mem_heads_of_jmpout {opline : Op} {fi : FlowInfo} {target : Int}
    (mem : opline ∈ opArray.opcodes) (flow : opGetFlowinfo opline = some fi)
    (isTarget : target ∈ fi.jmpouts) : target ∈ opArray.heads := by
  refine List.mem_append_left _ (List.mem_cons_of_mem _ (List.mem_flatten.mpr ?_))
  obtain ⟨i, bound, rfl⟩ := List.getElem_of_mem mem
  exact ⟨_, List.mem_mapIdx.mpr ⟨i, bound, rfl⟩, mem_opHeads.mpr ⟨fi, flow, .inl isTarget⟩⟩

theorem mem_heads_of_tryCatch {element : TryCatch} {target : Nat}
    (mem : element ∈ opArray.tryCatchArray)
    (isTarget : target = element.tryOp ∨ target = element.catchOp ∨
      target = element.finallyOp) : (target : Int) ∈ opArray.heads := by
  refine List.mem_append_right _ (List.mem_flatMap.mpr ⟨element, mem, ?_⟩)
  rcases isTarget with rfl | rfl | rfl <;> simp

theorem back_of_head {heads : List Bool} {i : Nat} (first : heads[0]? = some true)
    (isHead : heads[i]? = some true) : Back (fun i => (entryAt (bbids (-1) heads) i).map Int.toNat)
      (fun bbid => (entryAt (buildBbs 0 0 1 (bbids (-1) heads).tail) bbid).map Bb.opnum) i := by
  cases heads with
  | nil => cases first
  | cons head heads =>
    cases first
    have infos : bbids (-1) (true :: heads) = 0 :: bbids 0 heads := by simp [bbids]
    simp only [Back, infos, List.tail_cons, entryAt_natCast]
    cases i with
    | zero =>
      obtain ⟨bb, rest, isFirst, opnum⟩ := buildBbs_first 0 0 1 (bbids 0 heads)
      exact ⟨0, 0, by simp, by simp [isFirst, opnum], rfl⟩
    | succ i =>
      obtain ⟨n, info, bb, isBb, opnum⟩ :=
        @buildBbs_head heads 0 1 i 0 isHead
      refine ⟨n + 1, i + 1, ?_, ?_, rfl⟩
      · rw [List.getElem?_cons_succ, info, map_some]
        congr 1
        omega
      · rw [isBb, map_some, opnum, Nat.add_comm]

/-- **The op array is what it was when its blocks are joined.** -/
theorem bbsRestoreOpnum_bbsBuildFrom (inside : JumpsInside opArray) : ∃ bbs opArray',
    bbsBuildFrom opArray = some (bbs, opArray') ∧ bbsRestoreOpnum bbs opArray' = some opArray := by
  obtain ⟨heads, marked, length, -, areHeads⟩ := @markHeads_spec opArray.heads
    (List.replicate opArray.opcodes.length false) (by simpa using inside.heads)
  rw [List.length_replicate] at length
  have first : heads[0]? = some true := areHeads 0 (.head _)
  have takenBack : ∀ target ∈ opArray.heads,
      Back (fun i => (entryAt (bbids (-1) heads) i).map Int.toNat)
        (fun bbid => (entryAt (buildBbs 0 0 1 (bbids (-1) heads).tail) bbid).map Bb.opnum)
        target := by
    intro target mem
    have natural := Int.toNat_of_nonneg (inside.heads target mem).1
    exact natural ▸ back_of_head first (areHeads target mem)
  obtain ⟨sorted, bounds⟩ := @buildBbs_lasts 0 1 0 (bbids (-1) heads).tail Nat.zero_lt_one
  have positive : 0 < opArray.opcodes.length := List.length_pos_iff.mpr inside.nonempty
  obtain ⟨opcodes, areForth, areBack⟩ := @renumberBbs_back _ _ _ opArray.opcodes
    (sorted.imp Nat.ne_of_lt) fun bb mem => by
      have bound := (bounds bb.last (List.mem_map_of_mem mem)).2
      rw [List.length_tail, bbids_length, length] at bound
      have isOpline : bb.last < opArray.opcodes.length := by omega
      have isMember := List.getElem_mem isOpline
      obtain ⟨opline', isForth, isBack⟩ := renumberOp_back fun fi flow target isTarget =>
        takenBack target (mem_heads_of_jmpout isMember flow isTarget)
      exact ⟨_, opline', List.getElem?_eq_getElem isOpline, isForth, isBack⟩
  obtain ⟨tryCatchArray, elementsForth, elementsBack⟩ := @mapM_back _ _ _ opArray.tryCatchArray
    fun element mem => renumberTryCatch_back
      (takenBack _ (mem_heads_of_tryCatch mem (.inl rfl)))
      (takenBack _ (mem_heads_of_tryCatch mem (.inr (.inl rfl))))
      (takenBack _ (mem_heads_of_tryCatch mem (.inr (.inr rfl))))
  refine ⟨buildBbs 0 0 1 (bbids (-1) heads).tail, { opArray with opcodes, tryCatchArray }, ?_, ?_⟩
  · simp only [bbsBuildFrom, marked, elementsForth, areForth, bind_eq_bind,
      bind_some]
  · simp only [bbsRestoreOpnum, elementsBack, areBack, bind_eq_bind, bind_some]

end PhpExts.XCache.Optimizer
