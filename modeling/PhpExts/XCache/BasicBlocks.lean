import Mathlib.Tactic.IntervalCases
import PhpExts.XCache.OptimizerBlocks

/-!
# What the basic blocks are

The blocks that `bbs_build_from` makes follow each other, cover the op array and are entered at
their first oplines only. Where a block falls through is looked up one opline too far: the number
that is found is that of the next block only where that block has two oplines, and no number is
found for a block that ends because the opline behind it is jumped to.
-/

namespace PhpExts.XCache.Optimizer

/-! ## Where a block falls through -/

/-- `bb->fall`; none is `BBID_INVALID`. The block ends before the opline `i` of the loop. -/
def bbFall (opcodes : List Op) (oplineinfos : List Int) (bb : Bb) : Option Int := do
  let last ← opcodes[bb.last]?
  let fi ← opGetFlowinfo last
  let i := bb.opnum + bb.count
  if fi.fall ∧ i + 1 < opcodes.length then oplineinfos[i + 1]? else none

/-- What `bbs_build_from` writes to `fall`, block by block. -/
def bbsFalls (opArray : OpArray) : Option (List (Option Int)) := do
  let heads ← opArray.heads.foldlM markHead (List.replicate opArray.opcodes.length false)
  let oplineinfos := bbids (-1) heads
  some ((buildBbs 0 0 1 oplineinfos.tail).map (bbFall opArray.opcodes oplineinfos))

/-- Whether an opline can go on with the one behind it: what has no flow info does, but for a
break, a continue and `ZEND_THROW`. A `ZEND_FAST_CALL` does not; the `ZEND_FAST_RET` comes back. -/
def Op.continues (opline : Op) : Bool :=
  match opGetFlowinfo opline with
  | some fi => fi.fall
  | none => opline.opcode ∉ [.zendBrk, .zendCont, .other 108]

/-- Where a block has to start: at the first opline, where a jump or the try/catch table leads, and
behind a jump. -/
inductive Leader (opArray : OpArray) (i : Nat) : Prop where
  | first (zero : i = 0)
  | jump (opline : Op) (fi : FlowInfo) (member : opline ∈ opArray.opcodes)
      (flow : opGetFlowinfo opline = some fi) (target : (i : Int) ∈ fi.jmpouts)
  | behind (j : Nat) (opline : Op) (isOpline : opArray.opcodes[j]? = some opline)
      (flow : (opGetFlowinfo opline).isSome) (next : i = j + 1)
  | tryCatch (element : TryCatch) (member : element ∈ opArray.tryCatchArray)
      (target : i = element.tryOp ∨ i = element.catchOp ∨ i = element.finallyOp)

structure BlocksRight (opArray : OpArray) (bbs : List Bb) (falls : List (Option Int)) :
    Prop where
  nonempty : ∀ bb ∈ bbs, 0 < bb.count
  covers : bbs.flatMap (fun bb => List.range' bb.opnum bb.count) =
    List.range opArray.opcodes.length
  entries : ∀ bb ∈ bbs, ∀ i, bb.opnum < i → i < bb.opnum + bb.count → ¬ Leader opArray i
  length : falls.length = bbs.length
  falls : ∀ (n : Nat) (bb : Bb) (fall : Option Int) (opline : Op), bbs[n]? = some bb →
    falls[n]? = some fall → opArray.opcodes[bb.last]? = some opline →
    if opline.continues ∧ bb.opnum + bb.count < opArray.opcodes.length then
      ∃ (id : Nat) (next : Bb), fall = some (id : Int) ∧ bbs[id]? = some next ∧
        next.opnum = bb.opnum + bb.count
    else fall = none

/-- What goes on with the opline behind it, where a block starts there, is a jump, and that block
has another opline. -/
def FallsKnown (opArray : OpArray) : Prop :=
  ∀ i opline, opArray.opcodes[i]? = some opline → opline.continues →
    i + 1 < opArray.opcodes.length → Leader opArray (i + 1) →
    (opGetFlowinfo opline).isSome ∧ i + 2 < opArray.opcodes.length ∧ ¬ Leader opArray (i + 2)

theorem markHeads_only {marks : List Int} {heads heads' : List Bool} {i : Nat}
    (result : marks.foldlM markHead heads = some heads') (isHead : heads'[i]? = some true) :
    heads[i]? = some true ∨ (i : Int) ∈ marks := by
  induction marks generalizing heads with
  | nil =>
    cases result
    exact .inl isHead
  | cons mark marks ih =>
    rw [List.foldlM_cons, markHead] at result
    split at result
    case isFalse => cases result
    case isTrue bounds =>
      rcases ih result with before | later
      · by_cases same : mark.toNat = i
        · refine .inr (List.mem_cons.mpr (.inl ?_))
          omega
        · rw [List.getElem?_set_ne same] at before
          exact .inl before
      · exact .inr (.tail _ later)

theorem mem_heads_iff {opArray : OpArray} {i : Nat} (inside : i < opArray.opcodes.length) :
    (i : Int) ∈ opArray.heads ↔ Leader opArray i := by
  constructor
  · intro mem
    rcases List.mem_append.mp mem with mem | mem
    · rcases List.mem_cons.mp mem with zero | mem
      · exact .first (by omega)
      · obtain ⟨marks, isMarks, mem⟩ := List.mem_flatten.mp mem
        obtain ⟨j, bound, rfl⟩ := List.mem_mapIdx.mp isMarks
        obtain ⟨fi, flow, target | ⟨-, next⟩⟩ := mem_opHeads.mp mem
        · exact .jump _ fi (List.getElem_mem bound) flow target
        · exact .behind j _ (List.getElem?_eq_getElem bound) (by simp [flow]) (by omega)
    · obtain ⟨element, isElement, mem⟩ := List.mem_flatMap.mp mem
      simp only [List.mem_cons, List.not_mem_nil, or_false, Int.natCast_inj] at mem
      exact .tryCatch element isElement mem
  · rintro (rfl | ⟨opline, fi, mem, flow, target⟩ | ⟨j, opline, isOpline, flow, rfl⟩ |
      ⟨element, mem, target⟩)
    · exact .head _
    · exact mem_heads_of_jmpout mem flow target
    · obtain ⟨fi, flow⟩ := Option.isSome_iff_exists.mp flow
      obtain ⟨bound, rfl⟩ := List.getElem?_eq_some_iff.mp isOpline
      refine List.mem_append_left _ (.tail _ (List.mem_flatten.mpr ?_))
      exact ⟨_, List.mem_mapIdx.mpr ⟨j, bound, rfl⟩,
        mem_opHeads.mpr ⟨fi, flow, .inr ⟨inside, by omega⟩⟩⟩
    · exact mem_heads_of_tryCatch mem target

/-! ## Blocks between heads -/

theorem bbids_next {heads : List Bool} {id info : Int} {j : Nat} {isHead : Bool}
    (here : (bbids id heads)[j]? = some info) (next : heads[j + 1]? = some isHead) :
    (bbids id heads)[j + 1]? = some (if isHead then info + 1 else info) := by
  induction heads generalizing id j with
  | nil => cases next
  | cons first heads ih =>
    rw [List.getElem?_cons_succ] at next
    rw [bbids] at here ⊢
    rw [List.getElem?_cons_succ]
    cases j with
    | zero =>
      cases here
      cases heads with
      | nil => cases next
      | cons second heads =>
        cases next
        rfl
    | succ j => exact ih here next

theorem buildBbs_block {heads : List Bool} {start i : Nat} {id : Int} (before : start < i)
    {bb : Bb} (mem : bb ∈ buildBbs start id i (bbids id heads)) :
    start ≤ bb.opnum ∧ 0 < bb.count ∧ (bb.opnum + bb.count = i + heads.length ∨
        ∃ j, bb.opnum + bb.count = i + j ∧ heads[j]? = some true) ∧
      ∀ j, bb.opnum < i + j → i + j < bb.opnum + bb.count → heads[j]? = some false := by
  induction heads generalizing start i id with
  | nil =>
    obtain rfl := List.mem_singleton.mp mem
    refine ⟨Nat.le_refl _, Nat.sub_pos_of_lt before, .inl ?_, fun j _ inside => ?_⟩
    · simp only [List.length_nil]
      omega
    · simp only at inside
      omega
  | cons head heads ih =>
    cases head with
    | false =>
      have mem : bb ∈ buildBbs start id (i + 1) (bbids id heads) := by
        simpa [bbids, buildBbs] using mem
      obtain ⟨starts, nonempty, ends, interior⟩ := ih (by omega) mem
      refine ⟨starts, nonempty, ?_, fun j lower upper => ?_⟩
      · rcases ends with last | ⟨j, ends, isHead⟩
        · exact .inl (by rw [last, List.length_cons]; omega)
        · exact .inr ⟨j + 1, by omega, isHead⟩
      · cases j with
        | zero => rfl
        | succ j => exact interior j (by omega) (by omega)
    | true =>
      have new : id ≠ id + 1 := by omega
      have mem : bb = ⟨start, i - start⟩ ∨
          bb ∈ buildBbs i (id + 1) (i + 1) (bbids (id + 1) heads) := by
        simpa [bbids, buildBbs, new] using mem
      rcases mem with rfl | mem
      · refine ⟨Nat.le_refl _, Nat.sub_pos_of_lt before, .inr ⟨0, ?_, rfl⟩,
          fun j _ inside => ?_⟩
        · simp only
          omega
        · simp only at inside
          omega
      · obtain ⟨starts, nonempty, ends, interior⟩ := ih (by omega) mem
        refine ⟨by omega, nonempty, ?_, fun j lower upper => ?_⟩
        · rcases ends with last | ⟨j, ends, isHead⟩
          · exact .inl (by rw [last, List.length_cons]; omega)
          · exact .inr ⟨j + 1, by omega, isHead⟩
        · cases j with
          | zero => omega
          | succ j => exact interior j (by omega) (by omega)

theorem buildBbs_covers {start i : Nat} (id : Int) (infos : List Int) (before : start < i) :
    (buildBbs start id i infos).flatMap (fun bb => List.range' bb.opnum bb.count) =
      List.range' start (i + infos.length - start) := by
  induction infos generalizing start id i with
  | nil => simp [buildBbs]
  | cons bbid infos ih =>
    have longer : i + 1 + infos.length = i + (bbid :: infos).length := by
      rw [List.length_cons]
      omega
    rw [buildBbs]
    split
    · rw [ih id (by omega), longer]
    · rw [List.flatMap_cons, ih bbid (by omega), longer]
      have reaches : i = start + 1 * (i - start) := by omega
      rw [show List.range' i (i + (bbid :: infos).length - i) =
        List.range' (start + 1 * (i - start)) (i + (bbid :: infos).length - i) by rw [← reaches],
        List.range'_append]
      congr 1
      simp only [List.length_cons]
      omega

theorem buildBbs_end {heads : List Bool} {start i j : Nat} {id : Int} (before : start < i)
    (isHead : heads[j]? = some true) :
    ∃ bb ∈ buildBbs start id i (bbids id heads), bb.opnum + bb.count = i + j := by
  induction heads generalizing start i j id with
  | nil => cases isHead
  | cons head heads ih =>
    cases head with
    | false =>
      cases j with
      | zero => cases isHead
      | succ j =>
        obtain ⟨bb, mem, ends⟩ := @ih start (i + 1) j id (by omega) isHead
        refine ⟨bb, ?_, by omega⟩
        simpa [bbids, buildBbs] using mem
    | true =>
      have new : id ≠ id + 1 := by omega
      cases j with
      | zero =>
        refine ⟨⟨start, i - start⟩, ?_, ?_⟩
        · simp [bbids, buildBbs, new]
        · simp only
          omega
      | succ j =>
        obtain ⟨bb, mem, ends⟩ := @ih i (i + 1) j (id + 1) (by omega) isHead
        refine ⟨bb, ?_, by omega⟩
        simp [bbids, buildBbs, new, mem]

/-! ## The blocks of an op array -/

section

variable {opArray : OpArray}

/-- The marks of `bbs_build_from`, from which the blocks are built. -/
structure Marked (opArray : OpArray) (heads : List Bool) : Prop where
  marks : opArray.heads.foldlM markHead (List.replicate opArray.opcodes.length false) =
    some heads
  length : heads.length = opArray.opcodes.length
  leader : ∀ i, i < opArray.opcodes.length → (heads[i]? = some true ↔ Leader opArray i)
  first : ∃ rest, heads = true :: rest

theorem JumpsInside.marked (inside : JumpsInside opArray) : ∃ heads, Marked opArray heads := by
  obtain ⟨heads, marks, length, -, areHeads⟩ := @markHeads_spec opArray.heads
    (List.replicate opArray.opcodes.length false) (by simpa using inside.heads)
  rw [List.length_replicate] at length
  refine ⟨heads, marks, length, fun i bound => ?_, ?_⟩
  · rw [← mem_heads_iff bound]
    constructor
    · intro isHead
      refine (markHeads_only marks isHead).resolve_left ?_
      simp [bound]
    · intro mem
      exact areHeads i mem
  · have first : heads[0]? = some true := areHeads 0 (.head _)
    cases heads with
    | nil => cases first
    | cons head rest => exact ⟨rest, congrArg (· :: rest) (Option.some.inj first)⟩

theorem Marked.block {heads : List Bool} (marked : Marked opArray heads) {i : Nat}
    (bound : i < opArray.opcodes.length) (leader : Leader opArray i) :
    ∃ (id : Nat) (bb : Bb), (bbids (-1) heads)[i]? = some (id : Int) ∧
      (buildBbs 0 0 1 (bbids (-1) heads).tail)[id]? = some bb ∧ bb.opnum = i := by
  have isHead := (marked.leader i bound).mpr leader
  obtain ⟨rest, rfl⟩ := marked.first
  cases i with
  | zero =>
    obtain ⟨bb, later, isFirst, opnum⟩ := buildBbs_first 0 0 1 (bbids 0 rest)
    refine ⟨0, bb, by simp [bbids], ?_, opnum⟩
    simp [bbids, isFirst]
  | succ i =>
    obtain ⟨n, info, bb, isBb, opnum⟩ := @buildBbs_head rest 0 1 i 0 isHead
    refine ⟨n + 1, bb, ?_, ?_, by omega⟩
    · simp only [bbids, if_true, List.getElem?_cons_succ]
      exact info.trans (by congr 1; omega)
    · simpa [bbids] using isBb

theorem Marked.block_spec {heads : List Bool} (marked : Marked opArray heads) {bb : Bb}
    (mem : bb ∈ buildBbs 0 0 1 (bbids (-1) heads).tail) :
    0 < bb.count ∧ bb.opnum + bb.count ≤ opArray.opcodes.length ∧
      (bb.opnum + bb.count < opArray.opcodes.length → Leader opArray (bb.opnum + bb.count)) ∧
      ∀ i, bb.opnum < i → i < bb.opnum + bb.count → ¬ Leader opArray i := by
  have length := marked.length
  have leader := marked.leader
  obtain ⟨rest, rfl⟩ := marked.first
  rw [List.length_cons] at length
  obtain ⟨-, nonempty, ends, interior⟩ :=
    @buildBbs_block rest 0 1 0 Nat.zero_lt_one bb (by simpa [bbids] using mem)
  have inside : bb.opnum + bb.count ≤ opArray.opcodes.length := by
    rcases ends with last | ⟨j, ends, isHead⟩
    · omega
    · have bound := (List.getElem?_eq_some_iff.mp isHead).1
      omega
  refine ⟨nonempty, inside, fun further => ?_, fun i lower upper isLeader => ?_⟩
  · rcases ends with last | ⟨j, ends, isHead⟩
    · omega
    · refine (leader _ further).mp ?_
      rw [ends, Nat.add_comm, List.getElem?_cons_succ, isHead]
  · obtain ⟨j, rfl⟩ : ∃ j, i = 1 + j := ⟨i - 1, by omega⟩
    have isHead := (leader (1 + j) (by omega)).mpr isLeader
    rw [Nat.add_comm, List.getElem?_cons_succ, interior j lower upper] at isHead
    cases isHead

theorem Marked.block_end {heads : List Bool} (marked : Marked opArray heads) {i : Nat}
    (bound : i + 1 < opArray.opcodes.length) (leader : Leader opArray (i + 1)) :
    ∃ bb ∈ buildBbs 0 0 1 (bbids (-1) heads).tail, bb.opnum + bb.count = i + 1 := by
  have isHead := (marked.leader (i + 1) bound).mpr leader
  obtain ⟨rest, rfl⟩ := marked.first
  obtain ⟨bb, mem, ends⟩ := @buildBbs_end rest 0 1 i 0 Nat.zero_lt_one isHead
  exact ⟨bb, by simpa [bbids] using mem, by omega⟩

theorem Marked.info_next {heads : List Bool} (marked : Marked opArray heads) {i : Nat}
    (bound : i + 1 < opArray.opcodes.length) (other : ¬ Leader opArray (i + 1)) {id : Int}
    (info : (bbids (-1) heads)[i]? = some id) : (bbids (-1) heads)[i + 1]? = some id := by
  have inside : i + 1 < heads.length := marked.length.symm ▸ bound
  have noHead : heads[i + 1]? = some false := by
    rw [List.getElem?_eq_getElem inside, Option.some.injEq, ← Bool.not_eq_true]
    intro isHead
    exact other ((marked.leader (i + 1) bound).mp
      ((List.getElem?_eq_getElem inside).trans (congrArg some isHead)))
  exact bbids_next info noHead

theorem bbsFalls_of_marked {heads : List Bool} (marked : Marked opArray heads) :
    bbsFalls opArray = some ((buildBbs 0 0 1 (bbids (-1) heads).tail).map
      (bbFall opArray.opcodes (bbids (-1) heads))) := by
  simp only [bbsFalls, marked.marks, Option.bind_eq_bind, Option.bind_some]

theorem bbs_of_marked {heads : List Bool} (marked : Marked opArray heads) {bbs : List Bb}
    {opArray' : OpArray} (result : bbsBuildFrom opArray = some (bbs, opArray')) :
    bbs = buildBbs 0 0 1 (bbids (-1) heads).tail := by
  simp only [bbsBuildFrom, marked.marks, Option.bind_eq_bind, Option.bind_some] at result
  obtain ⟨tryCatchArray, -, result⟩ := Option.bind_eq_some_iff.mp result
  obtain ⟨opcodes, -, result⟩ := Option.bind_eq_some_iff.mp result
  exact (congrArg Prod.fst (Option.some.inj result)).symm

theorem bbFall_eq_some_iff {oplineinfos : List Int} {bb : Bb} {opline : Op} {id : Int}
    (isLast : opArray.opcodes[bb.last]? = some opline) :
    bbFall opArray.opcodes oplineinfos bb = some id ↔ ∃ fi, opGetFlowinfo opline = some fi ∧
      fi.fall = true ∧ bb.opnum + bb.count + 1 < opArray.opcodes.length ∧
        oplineinfos[bb.opnum + bb.count + 1]? = some id := by
  simp only [bbFall, isLast, Option.bind_eq_bind, Option.bind_some, Option.bind_eq_some_iff]
  refine exists_congr fun fi => and_congr_right fun _ => ?_
  split
  case isTrue falls => simp [falls]
  case isFalse stays =>
    rw [not_and] at stays
    simp only [reduceCtorEq, false_iff, not_and]
    intro falls bound
    exact absurd bound (stays falls)

theorem FallsKnown.fall {heads : List Bool} (marked : Marked opArray heads)
    (known : FallsKnown opArray) {bb : Bb} {opline : Op}
    (mem : bb ∈ buildBbs 0 0 1 (bbids (-1) heads).tail)
    (isLast : opArray.opcodes[bb.last]? = some opline) :
    if opline.continues ∧ bb.opnum + bb.count < opArray.opcodes.length then
      ∃ (id : Nat) (next : Bb), bbFall opArray.opcodes (bbids (-1) heads) bb = some (id : Int) ∧
        (buildBbs 0 0 1 (bbids (-1) heads).tail)[id]? = some next ∧ next.opnum = bb.opnum + bb.count
    else bbFall opArray.opcodes (bbids (-1) heads) bb = none := by
  obtain ⟨nonempty, -, starts, -⟩ := marked.block_spec mem
  have behind : bb.last + 1 = bb.opnum + bb.count := by
    rw [Bb.last]
    omega
  split
  case isTrue further =>
    have leader := starts further.2
    obtain ⟨hasFlow, bound, other⟩ := known bb.last opline isLast further.1
      (behind ▸ further.2) (behind ▸ leader)
    obtain ⟨fi, flow⟩ := Option.isSome_iff_exists.mp hasFlow
    have falls : fi.fall = true := by
      have continues := further.1
      rwa [Op.continues, flow] at continues
    obtain ⟨id, next, info, isNext, opnum⟩ := marked.block further.2 leader
    rw [show bb.last + 2 = bb.opnum + bb.count + 1 by omega] at bound other
    refine ⟨id, next, (bbFall_eq_some_iff isLast).mpr ⟨fi, flow, falls, bound, ?_⟩, isNext,
      opnum⟩
    exact marked.info_next bound other info
  case isFalse stays =>
    rw [Option.eq_none_iff_forall_ne_some]
    intro id found
    obtain ⟨fi, flow, falls, bound, -⟩ := (bbFall_eq_some_iff isLast).mp found
    refine stays ⟨?_, by omega⟩
    rw [Op.continues, flow]
    exact falls

/-- **The blocks are right exactly where each fall-through leads into two oplines.** -/
theorem blocksRight_iff (inside : JumpsInside opArray) :
    (∃ bbs opArray' falls, bbsBuildFrom opArray = some (bbs, opArray') ∧
      bbsFalls opArray = some falls ∧ BlocksRight opArray bbs falls) ↔ FallsKnown opArray := by
  obtain ⟨heads, marked⟩ := inside.marked
  constructor
  · rintro ⟨bbs, opArray', falls, built, areFalls, right⟩ i opline isOpline continues bound leader
    obtain rfl := bbs_of_marked marked built
    obtain rfl := Option.some.inj ((bbsFalls_of_marked marked).symm.trans areFalls)
    obtain ⟨bb, member, ends⟩ := marked.block_end bound leader
    have last : bb.last = i := by
      rw [Bb.last]
      omega
    subst last
    obtain ⟨n, isBb⟩ := List.mem_iff_getElem?.mp member
    have fall := right.falls n bb _ opline isBb (by rw [List.getElem?_map, isBb, Option.map_some])
      isOpline
    rw [if_pos ⟨continues, ends ▸ bound⟩] at fall
    obtain ⟨id, next, found, isNext, opnum⟩ := fall
    obtain ⟨fi, flow, -, more, info⟩ := (bbFall_eq_some_iff isOpline).mp found
    rw [ends] at more info opnum
    refine ⟨by simp [flow], more, fun other => ?_⟩
    obtain ⟨id', next', info', isNext', opnum'⟩ := marked.block more other
    obtain rfl := Int.ofNat_inj.mp (Option.some.inj (info.symm.trans info'))
    obtain rfl := Option.some.inj (isNext.symm.trans isNext')
    omega
  · intro known
    obtain ⟨bbs, opArray', built, -⟩ := bbsRestoreOpnum_bbsBuildFrom inside
    obtain rfl := bbs_of_marked marked built
    refine ⟨_, opArray', _, built, bbsFalls_of_marked marked, ?_⟩
    exact {
      nonempty := fun bb member => (marked.block_spec member).1
      covers := by
        have positive : 0 < opArray.opcodes.length := List.length_pos_iff.mpr inside.nonempty
        rw [buildBbs_covers 0 _ Nat.zero_lt_one, List.length_tail, bbids_length, marked.length,
          List.range_eq_range']
        congr 1
        omega
      entries := fun bb member => (marked.block_spec member).2.2.2
      length := List.length_map _
      falls := by
        intro n bb fall opline isBb isFall isLast
        rw [List.getElem?_map, isBb, Option.map_some, Option.some.injEq] at isFall
        subst isFall
        exact known.fall marked (List.mem_of_getElem? isBb) isLast }

end

/-! ## A loop and a branch -/

def Op.testing (opcode : Opcode) (target : Int) : Op :=
  ⟨opcode, ⟨.other 8, 0⟩, ⟨.other 8, target⟩, ⟨.isUnused, 0⟩, 0, 0⟩

def doWhile : OpArray :=
  ⟨true, [.testing (.other 40) 0, .testing .zendJmpnz 0, .testing (.other 40) 0,
    .testing .zendReturn 0], [], none, []⟩

def ifThen : OpArray :=
  ⟨true, [.testing .zendJmpz 2, .testing (.other 40) 0, .testing .zendReturn 0], [], none, []⟩

theorem doWhile_inside : JumpsInside doWhile := by
  refine ⟨by decide, ?_, by simp [doWhile]⟩
  decide

theorem ifThen_inside : JumpsInside ifThen := by
  refine ⟨by decide, ?_, by simp [ifThen]⟩
  decide

theorem doWhile_known : FallsKnown doWhile := by
  intro i opline isOpline continues bound leader
  have isHead := (mem_heads_iff bound).mpr leader
  obtain rfl : i = 1 := by
    have small : i < 3 := Nat.lt_of_succ_lt_succ bound
    interval_cases i
    · exact absurd isHead (by decide)
    · rfl
    · exact absurd isHead (by decide)
  cases isOpline
  refine ⟨rfl, by decide, fun other => ?_⟩
  exact absurd ((mem_heads_iff (by decide)).mpr other) (by decide)

theorem blocksRight_iff_doWhile : ∃ bbs opArray' falls,
    bbsBuildFrom doWhile = some (bbs, opArray') ∧ bbsFalls doWhile = some falls ∧
      BlocksRight doWhile bbs falls :=
  (blocksRight_iff doWhile_inside).mpr doWhile_known

/-- The jump falls through to the statement, but the return's block is found. -/
theorem not_blocksRight_ifThen : JumpsInside ifThen ∧ ¬ ∃ bbs opArray' falls,
    bbsBuildFrom ifThen = some (bbs, opArray') ∧ bbsFalls ifThen = some falls ∧
      BlocksRight ifThen bbs falls := by
  refine ⟨ifThen_inside, ?_⟩
  rintro ⟨bbs, opArray', falls, built, areFalls, right⟩
  have isBbs : bbs = [⟨0, 1⟩, ⟨1, 1⟩, ⟨2, 1⟩] := by
    have found : (bbsBuildFrom ifThen).map Prod.fst = some [⟨0, 1⟩, ⟨1, 1⟩, ⟨2, 1⟩] := by
      decide
    rw [built] at found
    exact Option.some.inj found
  have isFalls : falls = [some 2, none, none] := by
    have found : bbsFalls ifThen = some [some 2, none, none] := by decide
    exact Option.some.inj (areFalls.symm.trans found)
  subst isBbs isFalls
  have fall := right.falls 0 ⟨0, 1⟩ (some 2) _ rfl rfl rfl
  rw [if_pos (by decide)] at fall
  obtain ⟨id, next, found, isNext, opnum⟩ := fall
  obtain rfl : id = 2 := by
    have same := Option.some.inj found
    omega
  cases isNext
  cases opnum

end PhpExts.XCache.Optimizer
