import PhpExts.Msgpack.ZvalStack

/-!
# The table of slots

The zvals that a later reference may name are kept in a list of blocks of 1024 slots, by
`msgpack_var_push` at the end and by `msgpack_var_access` under their numbers. The blocks are a
vector: a number has the zval that was pushed under it, and no other number has one. Nothing
replaces a zval that has been pushed (there is no `msgpack_var_replace`), so the slots stay as they
are (`table_slots`).
-/

namespace PhpExts.Msgpack.SlotTable

open PhpExts.Zend PhpExts.Msgpack.ZvalStack

/-- `msgpack_var_push`, with what is in the memory of a new block. -/
def msgpackVarPush (rval : Addr) (memory : Nat → Option Addr) (first : List VarEntries) :
    List VarEntries :=
  msgpackStackPush (some rval) memory first

/-- `msgpack_var_access`: what is in the slot that is found. -/
def msgpackVarAccess : Int → List VarEntries → Option (Option Addr)
  | _, [] => none
  | id, block :: rest =>
    if varEntriesMax ≤ id ∧ block.usedSlots = varEntriesMax then
      msgpackVarAccess (id - varEntriesMax) rest
    else if id < 0 ∨ block.usedSlots ≤ id then none
    else some (block.data id.toNat)

/-- The blocks after some pushes, each with the memory that it would get. -/
def table (pushes : List (Addr × (Nat → Option Addr))) : List VarEntries :=
  pushes.foldl (fun first push => msgpackVarPush push.1 push.2 first) []

theorem getElem?_used {block : VarEntries} {id : Int} (nonneg : 0 ≤ id) :
    block.used[id.toNat]? = if block.usedSlots ≤ id then none else some (block.data id.toNat) := by
  rw [VarEntries.used, List.getElem?_map]
  split_ifs with above
  · rw [List.getElem?_eq_none (by rw [List.length_range]; omega)]
    rfl
  · rw [List.getElem?_range (by omega)]
    rfl

theorem access_eq : ∀ {blocks : List VarEntries} (id : Int), (∀ b ∈ blocks, b.Counted) →
    Filled (blocks.map VarEntries.used) →
    msgpackVarAccess id blocks = if id < 0 then none else (pending blocks)[id.toNat]?
  | [], id, _, _ => by simp [msgpackVarAccess, pending]
  | block :: rest, id, counted, filled => by
    have here := counted block (.head _)
    have split : pending (block :: rest) = block.used ++ pending rest := rfl
    rw [msgpackVarAccess, split]
    by_cases negative : id < 0
    · rw [if_neg (by simp [varEntriesMax]; omega), if_pos (.inl negative), if_pos negative]
    rw [if_neg negative]
    by_cases full : block.usedSlots = varEntriesMax
    · have size := here.full_iff.mpr full
      by_cases above : (varEntriesMax : Int) ≤ id
      · -- the number lies behind this block, and the rest is walked with what is left of it
        have left : (id - varEntriesMax).toNat = id.toNat - varEntriesMax := by omega
        rw [if_pos ⟨above, full⟩, access_eq _ (fun b mem => counted b (.tail _ mem))
          filled.tail, if_neg (by omega), List.getElem?_append_right (by omega), size, left]
      · rw [if_neg (fun both => above both.1), if_neg (by omega),
          List.getElem?_append_left (by omega), getElem?_used (by omega), if_neg (by omega)]
    · obtain ⟨empty, -⟩ := filled.eq_nil fun same => full (here.full_iff.mp same)
      obtain rfl : rest = [] := List.map_eq_nil_iff.mp empty
      rw [if_neg (fun both => full both.2), pending, List.map_nil, List.flatten_nil,
        List.append_nil, getElem?_used (by omega)]
      exact if_congr (or_iff_right negative) rfl rfl

theorem table_filled (pushes : List (Addr × (Nat → Option Addr))) :
    (∀ b ∈ table pushes, b.Counted) ∧ Filled ((table pushes).map VarEntries.used)
      ∧ pending (table pushes) = pushes.map fun push => some push.1 := by
  induction pushes using List.reverseRecOn with
  | nil => exact ⟨fun b mem => (nomatch mem), trivial, rfl⟩
  | append_singleton pushes push ih =>
    obtain ⟨counted, filled, same⟩ := ih
    obtain ⟨used, counted'⟩ := @used_push (table pushes) (some push.1) push.2 counted
    obtain ⟨flat, filled'⟩ := @pushDtor_flatten (some push.1) _ filled
    have step : table (pushes ++ [push])
        = msgpackStackPush (some push.1) push.2 (table pushes) := List.foldl_concat _ _ _ _
    rw [step]
    refine ⟨counted', used ▸ filled', ?_⟩
    rw [pending, used, flat, List.map_append]
    exact congrArg (· ++ [some push.1]) same

theorem access_table (pushes : List (Addr × (Nat → Option Addr))) (id : Int) :
    msgpackVarAccess id (table pushes) = (varAccess (pushes.map Prod.fst) id).map some := by
  obtain ⟨counted, filled, same⟩ := table_filled pushes
  rw [access_eq id counted filled, same, varAccess]
  split_ifs
  · rfl
  · simp [Function.comp_def]

/-- The number of a push has what was pushed, whatever is pushed after it, and all other numbers
have nothing. -/
theorem table_slots (pushes : List (Addr × (Nat → Option Addr))) :
    (∀ (n : Nat) (h : n < pushes.length) (more : List (Addr × (Nat → Option Addr))),
      msgpackVarAccess n (table (pushes ++ more)) = some (some pushes[n].1))
      ∧ ∀ id : Int, id < 0 ∨ pushes.length ≤ id → msgpackVarAccess id (table pushes) = none := by
  constructor
  · intro n h more
    rw [access_table, varAccess, if_neg (by omega), Int.toNat_natCast, List.map_append,
      List.getElem?_append_left (by rwa [List.length_map]), List.getElem?_map,
      List.getElem?_eq_getElem h]
    rfl
  · intro id outside
    rw [access_table, varAccess]
    split_ifs with negative
    · rfl
    · rw [List.getElem?_eq_none (by rw [List.length_map]; omega)]
      rfl

/-- No calls on the table put another zval in the place of one: the slots of `0` stay. -/
theorem not_replaced :
    ¬ ∀ (pushes : List (Addr × (Nat → Option Addr))) (rval replacement : Addr), ∃ more,
      ∀ id : Int, msgpackVarAccess id (table (pushes ++ more))
        = (msgpackVarAccess id (table pushes)).map
          (·.map fun a => if a = rval then replacement else a) := by
  intro replaced
  obtain ⟨more, same⟩ := replaced [(0, fun _ => none)] 0 1
  have := same 0
  rw [access_table, access_table] at this
  cases this

end PhpExts.Msgpack.SlotTable
