import PhpExts.XCache.ProcessorGraph

/-!
# The passes that copy, on a graph

With a table of zvals a pass copies every graph (`storeZvalPtr_copies`); without one it copies
a graph in which no zval is met twice (`storeZvalPtr_plain`), and the calc pass tells which graphs
these are (`calcZvalPtr_visits`).
-/

namespace PhpExts.XCache.Processor

def Store.copied (store : Store) (table : List (Nat × Nat)) : Copied :=
  ⟨table, store.copies, store.p⟩

section

variable {heap : Heap} {sizes : Sizes} {pass : Pass} {nodes : List Nat} {bound : Nat}
  {storePtr : Store → Nat → Option (Store × Nat)}

variable (pass) in
theorem storeString_spec (store : Store) (bytes : List UInt8) :
    store.p ≤ (storeString pass store bytes).1.p ∧
      (storeString pass store bytes).1.copies = store.copies ∧
      (storeString pass store bytes).1.zvalptrs = store.zvalptrs ∧
      (storeString pass store bytes).1.reference = store.reference := by
  have le := le_align store.p
  simp only [storeString]
  split
  · exact ⟨by simp only [Store.alloc]; omega, rfl, rfl, rfl⟩
  · split
    · exact ⟨le_rfl, rfl, rfl, rfl⟩
    · exact ⟨by simp only [Store.alloc]; omega, rfl, rfl, rfl⟩

/-- A pass may go on with a list of zvals under a condition, and then the condition holds of the
rest of the list. -/
def Steps (heap : Heap) (storePtr : Store → Nat → Option (Store × Nat))
    (ready : Store → List (Nat × Nat) → List Nat → Prop) : Prop :=
  ∀ store table src srcs, ready store table (src :: srcs) → ∃ store' table' dst,
    storePtr store src = some (store', dst) ∧
    CopyList heap (store.copied table) [src] (store'.copied table') [dst] ∧
    ready store' table' srcs

def Steady (ready : Store → List (Nat × Nat) → List Nat → Prop) : Prop :=
  ∀ store store' table srcs, ready store table srcs → store'.reference = store.reference →
    store'.zvalptrs = store.zvalptrs → ready store' table srcs

variable {ready : Store → List (Nat × Nat) → List Nat → Prop} {store : Store}
  {table : List (Nat × Nat)}

theorem le_alloc (store : Store) (size : Nat) :
    store.p ≤ (store.alloc size).2 ∧ (store.alloc size).1.p = (store.alloc size).2 + size :=
  ⟨le_align store.p, rfl⟩

variable (sizes) in
theorem storeBuckets_step (steps : Steps heap storePtr ready) (steady : Steady ready)
    {buckets : List Bucket} (isReady : ready store table (buckets.map Bucket.data)) :
    ∃ store' table' buckets', storeBuckets sizes storePtr store buckets = some (store', buckets') ∧
      CopyList heap (store.copied table) (buckets.map Bucket.data) (store'.copied table')
        (buckets'.map Bucket.data) ∧ buckets'.map (fun bucket => (bucket.h, bucket.key)) =
        buckets.map (fun bucket => (bucket.h, bucket.key)) ∧ ready store' table' [] := by
  induction buckets generalizing store table with
  | nil => exact ⟨store, table, [], rfl, .nil, rfl, isReady⟩
  | cons bucket buckets ih =>
    obtain ⟨store', table', dst, result, copies, ready'⟩ := steps _ _ _ _
      (steady _ (store.alloc (sizes.bucket + bucket.key.length)).1 _ _ isReady rfl rfl)
    obtain ⟨last, lastTable, buckets', results, rest, same, readyLast⟩ := ih ready'
    obtain ⟨le, more⟩ := le_alloc store (sizes.bucket + bucket.key.length)
    refine ⟨last, lastTable, { bucket with data := dst } :: buckets', ?_,
      .skip (n := (store.alloc (sizes.bucket + bucket.key.length)).1.p) ?_
        (copies.append rest), ?_, readyLast⟩
    · simp only [storeBuckets, result, results, Option.bind_eq_bind, Option.bind_some]
    · simp only [Store.copied]
      omega
    · rw [List.map_cons, List.map_cons, same]

theorem sameKeys_refl (zval : Zval) : SameKeys zval zval := by
  obtain ⟨value, refcount, isRef⟩ := zval
  cases value <;> simp [SameKeys]

variable (sizes) in
theorem storeZval_step (pass : Pass) (steps : Steps heap storePtr ready) (steady : Steady ready)
    {zval : Zval} (initialised : ∀ ht table, zval.value = .array ht table →
      table.nTableMask = 0 → table.buckets = []) (dst : Nat)
    (isReady : ready store table zval.elements) :
    ∃ store' table' zval' copies n, storeZval sizes pass storePtr store dst zval = some store' ∧
      store.p ≤ n ∧ CopyList heap ⟨table, store.copies, n⟩ zval.elements ⟨table', copies, store'.p⟩
        zval'.elements ∧
      SameKeys zval zval' ∧ store'.copies = Function.update copies dst (some zval') ∧
      ready store' table' [] ∧
      ∀ ht table, zval'.value = .array ht table → store.p ≤ ht ∧ ht < n := by
  obtain ⟨value, refcount, isRef⟩ := zval
  cases value with
  | scalar type number =>
    exact ⟨_, table, _, store.copies, store.p, rfl, le_rfl, .nil, sameKeys_refl _, rfl,
      steady _ _ _ _ isReady rfl rfl, nofun⟩
  | string val bytes =>
    obtain ⟨le, sameCopies, sameTable, sameReference⟩ := storeString_spec pass store bytes
    refine ⟨(storeString pass store bytes).1.write dst
        ⟨.string (storeString pass store bytes).2 bytes, refcount, isRef⟩, table,
      ⟨.string (storeString pass store bytes).2 bytes, refcount, isRef⟩, store.copies,
      (storeString pass store bytes).1.p, rfl, le, .nil, ⟨rfl, rfl, rfl⟩, ?_,
      steady _ _ _ _ isReady sameReference sameTable, nofun⟩
    rw [Store.write, sameCopies]
  | array ht source =>
    obtain ⟨le, more⟩ := le_alloc store sizes.hashTable
    have positive := sizes.hashTable_pos
    by_cases mask : source.nTableMask = 0
    · have empty := initialised ht source rfl mask
      refine ⟨(store.alloc sizes.hashTable).1.write dst ⟨.array (store.alloc sizes.hashTable).2
          { source with buckets := [] }, refcount, isRef⟩, table,
        ⟨.array (store.alloc sizes.hashTable).2 { source with buckets := [] }, refcount, isRef⟩,
        store.copies, (store.alloc sizes.hashTable).1.p, ?_, by omega, ?_, ?_, rfl, ?_, ?_⟩
      · simp [storeZval, storeTable, mask]
      · simp only [Zval.elements, empty, List.map_nil]
        exact .nil
      · simp [SameKeys, empty]
      · simp only [Zval.elements, empty, List.map_nil] at isReady
        exact steady _ _ _ _ isReady rfl rfl
      · intro ht' table' isArray
        obtain ⟨rfl, -⟩ := Value.array.inj isArray
        omega
    · have alloc := le_alloc (store.alloc sizes.hashTable).1 (sizes.pointer * source.nTableSize)
      have isReady' : ready ((store.alloc sizes.hashTable).1.alloc
          (sizes.pointer * source.nTableSize)).1 table (source.buckets.map Bucket.data) :=
        steady _ _ _ _ isReady rfl rfl
      obtain ⟨store', table', buckets', result, copies, same, readyLast⟩ :=
        storeBuckets_step sizes steps steady isReady'
      refine ⟨store'.write dst ⟨.array (store.alloc sizes.hashTable).2
          { source with buckets := buckets' }, refcount, isRef⟩, table',
        ⟨.array (store.alloc sizes.hashTable).2 { source with buckets := buckets' }, refcount,
          isRef⟩, store'.copies, ((store.alloc sizes.hashTable).1.alloc
          (sizes.pointer * source.nTableSize)).1.p, ?_, by omega, copies, ?_, rfl,
        steady _ _ _ _ readyLast rfl rfl, ?_⟩
      · simp only [storeZval, storeTable, ne_eq, mask, not_false_eq_true, if_true, result,
          Option.bind_eq_bind, Option.bind_some]
      · exact ⟨rfl, rfl, rfl, rfl, rfl, same⟩
      · intro ht' table' isArray
        obtain ⟨rfl, -⟩ := Value.array.inj isArray
        omega

variable (store table) in
theorem storeZvalPtr_fresh {fuel : Nat}
    (steps : Steps heap (storeZvalPtr sizes pass heap fuel) ready) (steady : Steady ready)
    {src : Nat} {zval : Zval} (missing : store.find src = none) (cell : heap src = some zval)
    (initialised : ∀ ht table, zval.value = .array ht table →
      table.nTableMask = 0 → table.buckets = [])
    (isReady : ready ((store.alloc sizes.zval).1.enter src (align store.p))
      ((src, align store.p) :: table) zval.elements) : ∃ store' table' zval' copies n,
      storeZvalPtr sizes pass heap (fuel + 1) store src = some (store', align store.p) ∧
      align store.p < n ∧
      CopyList heap ⟨(src, align store.p) :: table, store.copies, n⟩ zval.elements
        ⟨table', copies, store'.p⟩ zval'.elements ∧
      SameKeys zval zval' ∧ store'.copies = Function.update copies (align store.p) (some zval') ∧
      ready store' table' [] ∧
      ∀ ht table, zval'.value = .array ht table → align store.p < ht ∧ ht < n := by
  have entered : ((store.alloc sizes.zval).1.enter src (align store.p)).copies = store.copies ∧
      ((store.alloc sizes.zval).1.enter src (align store.p)).p = align store.p + sizes.zval := by
    rw [Store.enter]
    split <;> exact ⟨rfl, rfl⟩
  have positive := sizes.zval_pos
  obtain ⟨store', table', zval', copies, n, result, le, filled, same, copied, readyLast, tables⟩ :=
    storeZval_step sizes pass steps steady initialised (align store.p) isReady
  rw [entered.1] at filled
  rw [entered.2] at le tables
  refine ⟨store', table', zval', copies, n, ?_, by omega, filled, same, copied, readyLast,
    fun ht table isArray => ?_⟩
  · have inner : storeZval sizes pass (storeZvalPtr sizes pass heap fuel)
        ((store.alloc sizes.zval).1.enter src (store.alloc sizes.zval).2)
        (store.alloc sizes.zval).2 zval = some store' := result
    simp only [storeZvalPtr, missing, cell, inner, Option.bind_eq_bind, Option.bind_some]
    rfl
  · have bounds := tables ht table isArray
    omega

end

variable {heap : Heap} {sizes : Sizes} {pass : Pass}

theorem Graph.cell_initialised (graph : Graph heap) {a : Nat} {zval : Zval}
    (inside : a ∈ graph.nodes)
    (cell : heap a = some zval) (ht : Nat) (table : Table) (isArray : zval.value = .array ht table)
    (mask : table.nTableMask = 0) : table.buckets = [] := by
  obtain ⟨value, refcount, isRef⟩ := zval
  subst isArray
  exact graph.initialised a inside ht table refcount isRef cell mask

def Tabled (graph : Graph heap) (bound : Nat) (store : Store) (table : List (Nat × Nat))
    (srcs : List Nat) : Prop :=
  store.reference = true ∧ store.zvalptrs = table ∧ (∀ a ∈ srcs, a ∈ graph.nodes) ∧
    unmet graph.nodes (table.map Prod.fst) < bound

theorem Tabled.steady (graph : Graph heap) (bound : Nat) : Steady (Tabled graph bound) :=
  fun _ _ _ _ ready reference zvalptrs => ⟨reference.trans ready.1, zvalptrs.trans ready.2.1,
    ready.2.2⟩

/-- **With a table a pass copies every graph.** -/
theorem storeZvalPtr_copies (graph : Graph heap) (bound : Nat) :
    Steps heap (storeZvalPtr sizes pass heap bound) (Tabled graph bound) := by
  induction bound with
  | zero => exact fun _ _ _ _ ready => absurd ready.2.2.2 (Nat.not_lt_zero _)
  | succ bound ih =>
    rintro store table src srcs ⟨reference, rfl, inside, left⟩
    have srcInside := inside src (.head _)
    have others : ∀ a ∈ srcs, a ∈ graph.nodes := fun a mem =>
      inside a (.tail _ mem)
    cases found : store.zvalptrs.lookup src with
    | some dst =>
      refine ⟨store, store.zvalptrs, dst, ?_, .hit found .nil, reference, rfl, others, left⟩
      simp only [storeZvalPtr, Store.find, reference, if_true, found]
    | none =>
      obtain ⟨zval, cell⟩ := Option.isSome_iff_exists.mp (graph.allocated src srcInside)
      have fresh : src ∉ store.zvalptrs.map Prod.fst := by
        rw [mem_map_fst_iff, found]
        simp
      have fewer := unmet_lt srcInside fresh
      have entered : (store.alloc sizes.zval).1.enter src (align store.p) =
          { (store.alloc sizes.zval).1 with
            zvalptrs := (src, align store.p) :: store.zvalptrs } := if_pos reference
      obtain ⟨store', table', zval', copies, n, result, high, filled, same, copied, ready, -⟩ :=
        storeZvalPtr_fresh store store.zvalptrs ih (Tabled.steady graph bound)
          (by simp only [Store.find, reference, if_true, found]) cell
          (graph.cell_initialised srcInside cell) (by
            rw [entered]
            refine ⟨reference, rfl, fun a mem => ?_, ?_⟩
            · exact graph.closed src srcInside a (elements_of_cell cell ▸ mem)
            · simp only [List.map_cons]
              omega)
      have copying : CopyList heap (store.copied store.zvalptrs) [src] (store'.copied table')
          [align store.p] := by
        rw [Store.copied, Store.copied, copied]
        exact .fresh found cell (le_align _) high filled same .nil
      exact ⟨store', table', _, result, copying, ready.1, ready.2.1, others,
        (unmet_le copying.mem).trans_lt left⟩

/-! ## Without a table -/

/-- The zvals that are met below some zvals, one after the other and each as often as it is met;
with a bound on the depth. -/
inductive Visits (heap : Heap) : Nat → List Nat → List Nat → Prop where
  | nil {bound : Nat} : Visits heap bound [] []
  | cons {bound src : Nat} {zval : Zval} {srcs below behind : List Nat} :
      heap src = some zval → Visits heap bound zval.elements below →
      Visits heap (bound + 1) srcs behind →
      Visits heap (bound + 1) (src :: srcs) (src :: (below ++ behind))

/-- A pass without a table goes on with zvals below which none is met twice; those in `rest` are
to come later. -/
def Untabled (graph : Graph heap) (bound : Nat) (rest : List Nat) (store : Store)
    (table : List (Nat × Nat)) (srcs : List Nat) : Prop :=
  store.reference = false ∧ (∀ a ∈ srcs, a ∈ graph.nodes) ∧
    ∃ visited, Visits heap bound srcs visited ∧ (visited ++ rest).Nodup ∧
      ∀ a ∈ visited ++ rest, a ∉ table.map Prod.fst

theorem Untabled.steady (graph : Graph heap) (bound : Nat) (rest : List Nat) :
    Steady (Untabled graph bound rest) :=
  fun _ _ _ _ ready reference _ => ⟨reference.trans ready.1, ready.2⟩

/-- **Without a table a pass copies zvals below which none is met twice.** -/
theorem storeZvalPtr_plain (graph : Graph heap) (bound : Nat) (rest : List Nat) :
    Steps heap (storeZvalPtr sizes pass heap bound) (Untabled graph bound rest) := by
  induction bound generalizing rest with
  | zero =>
    rintro store table src srcs ⟨-, -, visited, visits, -⟩
    cases visits
  | succ bound ih =>
    rintro store table src srcs ⟨reference, inside, visited, visits, nodup, fresh⟩
    have srcInside := inside src (.head _)
    have others : ∀ a ∈ srcs, a ∈ graph.nodes := fun a mem =>
      inside a (.tail _ mem)
    cases visits with
    | @cons _ _ zval _ below behind cell visits visits' =>
      have missing : table.lookup src = none := by
        have unmet := fresh src (by simp)
        rw [mem_map_fst_iff] at unmet
        exact Option.not_isSome_iff_eq_none.mp unmet
      rw [List.cons_append, List.append_assoc] at nodup fresh
      obtain ⟨apart, nodup'⟩ := List.nodup_cons.mp nodup
      have entered : (store.alloc sizes.zval).1.enter src (align store.p) =
          (store.alloc sizes.zval).1 := if_neg (by simp [Store.alloc, reference])
      obtain ⟨store', table', zval', copies, n, result, high, filled, same, copied, ready, -⟩ :=
        storeZvalPtr_fresh store table (ih (behind ++ rest)) (Untabled.steady graph bound _)
          (by simp [Store.find, reference]) cell
          (graph.cell_initialised srcInside cell) (by
            rw [entered]
            refine ⟨reference, fun a mem => ?_, below, visits, nodup',
              fun a mem met => ?_⟩
            · exact graph.closed src srcInside a (elements_of_cell cell ▸ mem)
            · rcases List.mem_cons.mp met with rfl | earlier
              · exact apart mem
              · exact fresh a (.tail _ mem) earlier)
      have copying : CopyList heap (store.copied table) [src] (store'.copied table')
          [align store.p] := by
        rw [Store.copied, Store.copied, copied]
        exact .fresh missing cell (le_align _) high filled same .nil
      obtain ⟨reference', -, none, visitsNone, -, fresh'⟩ := ready
      cases visitsNone
      exact ⟨store', table', _, result, copying, reference', others, behind, visits',
        (List.nodup_append.mp nodup').2.1, fresh'⟩

/-! ## What the calc pass tells -/

theorem calcString_haveReferences (sized : Calc) (bytes : List UInt8) :
    (calcString sized bytes).haveReferences = sized.haveReferences := by
  rw [calcString]
  split
  · rfl
  · split <;> rfl

def Told (heap : Heap) (bound : Nat) (sized : Calc) (srcs : List Nat) (sized' : Calc) : Prop :=
  sized'.haveReferences = false → sized.haveReferences = false ∧ ∃ visited,
    Visits heap bound srcs visited ∧ sized'.zvalptrs = visited.reverse ++ sized.zvalptrs ∧
    (sized.zvalptrs.Nodup → sized'.zvalptrs.Nodup)

theorem Visits.append {bound : Nat} {srcs srcs' visited visited' : List Nat}
    (first : Visits heap bound srcs visited) (second : Visits heap bound srcs' visited') :
    Visits heap bound (srcs ++ srcs') (visited ++ visited') := by
  induction first with
  | nil => exact second
  | cons cell below _ _ ih =>
    rw [List.cons_append, List.cons_append, List.append_assoc]
    exact .cons cell below (ih second)

theorem calcBuckets_visits {bound : Nat} {calcPtr : Calc → Nat → Option Calc} {nodes : List Nat}
    (told : ∀ sized sized', ∀ src ∈ nodes, calcPtr sized src = some sized' →
      Told heap bound sized [src] sized')
    {sized sized' : Calc} {buckets : List Bucket} (inside : ∀ bucket ∈ buckets, bucket.data ∈ nodes)
    (result : calcBuckets sizes calcPtr sized buckets = some sized') :
    Told heap bound sized (buckets.map Bucket.data) sized' := by
  induction buckets generalizing sized with
  | nil =>
    cases result
    exact fun once => ⟨once, [], .nil, rfl, id⟩
  | cons bucket buckets ih =>
    obtain ⟨next, first, rest⟩ := Option.bind_eq_some_iff.mp result
    intro once
    obtain ⟨onceNext, behind, visits', met', nodup'⟩ :=
      ih (fun other mem => inside other (.tail _ mem)) rest once
    obtain ⟨onceFirst, below, visits, met, nodup⟩ :=
      told _ _ bucket.data (inside bucket (.head _)) first onceNext
    refine ⟨onceFirst, below ++ behind, visits.append visits', ?_,
      fun before => nodup' (nodup before)⟩
    rw [met', met, List.reverse_append, List.append_assoc]
    rfl

/-- **When the calc pass has met no zval twice, it has met just what there is.** -/
theorem calcZvalPtr_visits (graph : Graph heap) (bound : Nat) {sized sized' : Calc} {src : Nat}
    (inside : src ∈ graph.nodes) (result : calcZvalPtr sizes heap bound sized src = some sized') :
    Told heap bound sized [src] sized' := by
  induction bound generalizing sized sized' src with
  | zero => cases result
  | succ bound ih =>
    intro once
    rw [calcZvalPtr] at result
    split at result
    · cases result
      cases once
    rename_i unmet
    obtain ⟨zval, cell⟩ := Option.isSome_iff_exists.mp (graph.allocated src inside)
    have initialised := graph.cell_initialised inside cell
    have closed := graph.closed src inside
    rw [elements_of_cell cell] at closed
    simp only [cell] at result
    have leaf (empty : zval.elements = []) (reference : sized.haveReferences = false)
        (met : sized'.zvalptrs = src :: sized.zvalptrs) :
        sized.haveReferences = false ∧ ∃ visited, Visits heap (bound + 1) [src] visited ∧
          sized'.zvalptrs = visited.reverse ++ sized.zvalptrs ∧
          (sized.zvalptrs.Nodup → sized'.zvalptrs.Nodup) := by
      have below : Visits heap bound zval.elements [] := by
        rw [empty]
        exact .nil
      exact ⟨reference, [src], .cons cell below .nil, met, fun nodup =>
        met ▸ List.nodup_cons.mpr ⟨unmet, nodup⟩⟩
    obtain ⟨value, refcount, isRef⟩ := zval
    cases value with
    | scalar type number =>
      cases result
      exact leaf rfl once rfl
    | string val bytes =>
      cases result
      rw [calcString_haveReferences] at once
      exact leaf rfl once (calcString_zvalptrs _ _)
    | array ht table =>
      simp only [calcTable] at result
      split at result
      · obtain ⟨reference, below, visits, met, nodup⟩ := calcBuckets_visits
          (fun sized sized' src inside => ih inside) (fun bucket mem =>
            closed _ (List.mem_map_of_mem mem)) result once
        refine ⟨reference, src :: (below ++ []), .cons cell visits .nil, ?_, fun before =>
          nodup (List.nodup_cons.mpr ⟨unmet, before⟩)⟩
        rw [met, List.append_nil, List.reverse_cons, List.append_assoc]
        rfl
      · rename_i mask
        cases result
        have empty := initialised ht table rfl (not_not.mp mask)
        exact leaf (by simp [Zval.elements, empty]) once rfl

end PhpExts.XCache.Processor
