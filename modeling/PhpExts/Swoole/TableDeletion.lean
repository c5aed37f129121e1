import PhpExts.Swoole.TableMap

/-!
# Deleting from a table while it is iterated

The iterator keeps the index of a bucket and how many of its rows have been seen. A deletion moves
up the rows behind the one that goes, and the iterator does not hear of it: a row is skipped or comes
twice (`not_visited`).

What the iterator has left stays the same if it has seen all rows of the bucket of the key, and has
left the bucket, as it has after a row without a chain, or sees that the bucket has a chain still.
A loop whose deletions are such visits all rows, each once (`visited_once`).
-/

namespace PhpExts.Swoole

variable {δ : Type} (config : Config δ)

/-- `swTableRow_del` of the key of the row that the iterator is at. -/
def afterDelete (table : Table δ) (row : Row δ) : Table δ :=
  (perform config table (.del (cString row.key))).1

/-- A foreach loop that deletes the row it is at by its key when `deletes` says so of the rounds it
has left; without a result it has not ended. -/
def foreachDeleting (deletes : Nat → Bool) : Nat → Table δ → Iterator δ → Option (List (Row δ))
  | 0, _, _ => none
  | fuel + 1, table, iterator =>
    match iterator.row with
    | none => some []
    | some row =>
      let table' := if deletes fuel then afterDelete config table row else table
      (foreachDeleting deletes fuel table' (swTableIteratorForward config table' iterator)).map
        (row :: ·)

/-- The iterator has seen the rows of the bucket of the key. If it is still there, these are three
at least. -/
def Seen (table : Table δ) (iterator : Iterator δ) (row : Row δ) : Prop :=
  let i := config.index ((cString row.key).take keySize)
  i < iterator.absoluteIndex ∨ i = iterator.absoluteIndex
    ∧ 3 ≤ (table.visible i).length ∧ (table.visible i).length ≤ iterator.collisionIndex

def AllSeen (deletes : Nat → Bool) : Nat → Table δ → Iterator δ → Prop
  | 0, _, _ => True
  | fuel + 1, table, iterator =>
    match iterator.row with
    | none => True
    | some row =>
      let table' := if deletes fuel then afterDelete config table row else table
      (deletes fuel = true → Seen config table iterator row)
        ∧ AllSeen deletes fuel table' (swTableIteratorForward config table' iterator)

variable {config} {table : Table δ} {iterator : Iterator δ}

theorem length_visible_del {zero : δ} {bucket bucket' : Bucket δ} {key : List UInt8} {pooled : Bool}
    (deleted : swTableRowDel zero bucket key = some (bucket', pooled)) :
    bucket'.visible.length ≤ bucket.visible.length
      ∧ bucket.visible.length ≤ bucket'.visible.length + 1 := by
  obtain ⟨⟨active, field, data⟩, chain⟩ := bucket
  rw [swTableRowDel] at deleted
  split_ifs at deleted with inUse
  obtain rfl : active = true := inUse
  cases chain with
  | nil =>
    simp only [delLocked] at deleted
    split_ifs at deleted
    obtain ⟨rfl, -⟩ := Prod.mk.inj (Option.some.inj deleted)
    exact ⟨Nat.zero_le _, Nat.le_refl _⟩
  | cons tmp rest =>
    simp only [delLocked] at deleted
    split_ifs at deleted <;> obtain ⟨rfl, -⟩ := Prod.mk.inj (Option.some.inj deleted)
    · exact ⟨Nat.le_succ _, Nat.le_refl _⟩
    · have least := List.le_length_eraseP (p := Row.agrees key) (l := tmp :: rest)
      have most := List.length_eraseP_le (p := Row.agrees key) (l := tmp :: rest)
      have size : (⟨⟨true, field, data⟩, (tmp :: rest).eraseP (Row.agrees key)⟩ :
        Bucket δ).visible.length = ((tmp :: rest).eraseP (Row.agrees key)).length + 1 := rfl
      rw [size]
      show _ ≤ (tmp :: rest).length + 1 ∧ (tmp :: rest).length + 1 ≤ _
      omega

theorem visible_afterDelete (config : Config δ) (table : Table δ) (row : Row δ) :
    (∀ i, i ≠ config.index ((cString row.key).take keySize) →
      (afterDelete config table row).visible i = table.visible i)
      ∧ ∀ i, ((afterDelete config table row).visible i).length ≤ (table.visible i).length
        ∧ (table.visible i).length ≤ ((afterDelete config table row).visible i).length + 1 := by
  rw [afterDelete, perform]
  cases deleted : swTableRowDel config.zero
    (table.rows (config.index ((cString row.key).take keySize))) ((cString row.key).take keySize) with
  | none => exact ⟨fun _ _ => rfl, fun i => ⟨Nat.le_refl _, Nat.le_succ _⟩⟩
  | some result =>
    refine ⟨fun i other => congrArg Bucket.visible (Function.update_of_ne other _ _), fun i => ?_⟩
    show (Function.update table.rows _ result.1 i).visible.length ≤ (table.rows i).visible.length
      ∧ (table.rows i).visible.length ≤ (Function.update table.rows _ result.1 i).visible.length + 1
    by_cases here : i = config.index ((cString row.key).take keySize)
    · rw [here, Function.update_self]
      exact length_visible_del deleted
    · rw [Function.update_of_ne here]
      exact ⟨Nat.le_refl _, Nat.le_succ _⟩

theorem remaining_congr {α : Type} {contents contents' : Nat → List α} :
    ∀ {left i seen : Nat}, (contents' i).drop seen = (contents i).drop seen →
      (∀ j, i < j → contents' j = contents j) →
      remaining contents' left i seen = remaining contents left i seen
  | 0, _, _, _, _ => rfl
  | left + 1, i, seen, here, beyond => by
    rw [remaining, remaining, here, remaining_congr (by rw [beyond _ (Nat.lt_succ_self i)])
      fun j less => beyond j (Nat.lt_trans (Nat.lt_succ_self i) less)]

theorem HasLeft.afterDelete {row : Row δ} {rows : List (Row δ)}
    (hasLeft : HasLeft config table iterator rows) (seen : Seen config table iterator row) :
    HasLeft config (afterDelete config table row) iterator rows := by
  obtain ⟨others, sizes⟩ := visible_afterDelete config table row
  obtain ⟨inside, single, left⟩ := hasLeft
  rw [Seen] at seen
  generalize config.index ((cString row.key).take keySize) = i at others seen
  have beyond : ∀ j, iterator.absoluteIndex < j →
      (Swoole.afterDelete config table row).visible j = table.visible j :=
    fun j less => others j (by omega)
  rcases seen with behind | ⟨rfl, three, all⟩
  · have here := others iterator.absoluteIndex (Nat.ne_of_gt behind)
    exact ⟨inside, by rwa [here], by rwa [remaining_congr (by rw [here]) beyond]⟩
  · have size := sizes iterator.absoluteIndex
    refine ⟨inside, fun short => by omega, ?_⟩
    rw [remaining_congr _ beyond, left]
    rw [List.drop_of_length_le (by omega), List.drop_of_length_le all]

theorem HasLeft.foreachDeleting {deletes : Nat → Bool} :
    ∀ {fuel : Nat} {table : Table δ} {iterator : Iterator δ} {rows : List (Row δ)},
      rows.length < fuel → HasLeft config table iterator rows →
      AllSeen config deletes fuel table (swTableIteratorForward config table iterator) →
      foreachDeleting config deletes fuel table (swTableIteratorForward config table iterator) =
        some rows
  | 0, _, _, _, enough, _, _ => nomatch enough
  | fuel + 1, table, iterator, [], _, hasLeft, _ => by
    have atEnd : (swTableIteratorForward config table iterator).row = none := hasLeft.forward
    simp only [Swoole.foreachDeleting, atEnd]
  | fuel + 1, table, iterator, row :: rows, enough, hasLeft, allSeen => by
    obtain ⟨here, rest⟩ := hasLeft.forward
    simp only [AllSeen, here] at allSeen
    obtain ⟨seen, allSeen⟩ := allSeen
    have rest' : HasLeft config (if deletes fuel then Swoole.afterDelete config table row else table)
        (swTableIteratorForward config table iterator) rows := by
      split_ifs with deleted
      · exact rest.afterDelete (seen deleted)
      · exact rest
    have tail := HasLeft.foreachDeleting (Nat.lt_of_succ_lt_succ enough) rest' allSeen
    simp only [Swoole.foreachDeleting, here, tail, Option.map_some]

/-- Whatever the hash function and the contents are, a loop visits every row once if the table is
not changed, and if the buckets of the keys that it deletes have been seen. -/
theorem visited_once (config : Config δ) (table : Table δ) :
    swTableForeach config table = some (rowsOf config table)
      ∧ ∀ deletes fuel, rowCount config table < fuel → AllSeen config deletes fuel table
          (swTableIteratorForward config table swTableIteratorRewind) →
        foreachDeleting config deletes fuel table
          (swTableIteratorForward config table swTableIteratorRewind)
            = some (rowsOf config table) :=
  ⟨swTableForeach_eq config table, fun _ _ enough allSeen =>
    (hasLeft_rewind config table).foreachDeleting
      (Nat.lt_of_le_of_lt (length_le_rowCount config table) enough) allSeen⟩

def oneBucket : Config Unit := ⟨0, fun _ => 0, ()⟩

def threeRows : Table Unit :=
  [[97], [98], [99]].foldl (fun table key => (perform oneBucket table (.set key id)).1)
    (swTableCreate oneBucket 2)

/-- The first row is deleted, and the second one skipped. -/
theorem not_visited : ¬ ∀ (config : Config Unit) (table : Table Unit) deletes fuel,
    rowCount config table < fuel → foreachDeleting config deletes fuel table
        (swTableIteratorForward config table swTableIteratorRewind)
          = some (rowsOf config table) := by
  intro visits
  exact absurd (visits oneBucket threeRows (· == 4) 5 (by decide +kernel)) (by decide +kernel)

end PhpExts.Swoole
