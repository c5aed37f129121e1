import Mathlib.Data.List.Induction
import PhpExts.Msgpack.Unserialize

/-!
# The stack of pending zvals

`msgpack_stack_push` keeps a zval that is not stored yet in a list of blocks of 1024 slots;
`msgpack_stack_pop` is to take the last ones off again, and `msgpack_unserialize_var_destroy`
releases the rest. A push goes to the first block that is not full, behind all that are. A pop goes
there as well, and takes no more off than that block has. So a pop of `n` is one of the last `n`
only as long as these lie in one block that is not full (`pops_iff`).

The blocks are read here with their slots and their counts; what `pushDtor` and `popDtor` make of
the used slots is what the functions do (`used_push`, `used_pop`).
-/

namespace PhpExts.Msgpack.ZvalStack

open PhpExts.Zend
open Function (update)
open List (flatten_cons map_cons)

/-- `var_entries`, without the link. -/
structure VarEntries where
  data : Nat → Option Addr
  usedSlots : Int

def VarEntries.append (block : VarEntries) (entry : Option Addr) : VarEntries where
  data := update block.data block.usedSlots.toNat entry
  usedSlots := block.usedSlots + 1

/-- `msgpack_stack_push`: a zval, or a null pointer, with what is in the memory of a new block. -/
def msgpackStackPush (entry : Option Addr) (memory : Nat → Option Addr) :
    List VarEntries → List VarEntries
  | [] => [VarEntries.append ⟨memory, 0⟩ entry]
  | block :: rest =>
    if block.usedSlots = varEntriesMax then block :: msgpackStackPush entry memory rest
    else block.append entry :: rest

/-- The loop of `msgpack_stack_pop`. -/
def popLoop : Nat → VarEntries → VarEntries
  | 0, block => block
  | i + 1, block =>
    if block.usedSlots - 1 < 0 then ⟨update block.data 0 none, 0⟩
    else
      popLoop i ⟨update block.data (block.usedSlots - 1).toNat none,
        block.usedSlots - 1⟩

def msgpackStackPop (count : Int) : List VarEntries → List VarEntries
  | [] => []
  | block :: rest =>
    if block.usedSlots = varEntriesMax then block :: msgpackStackPop count rest
    else if count ≤ 0 then block :: rest
    else popLoop count.toNat block :: rest

/-- What `msgpack_unserialize_var_destroy` releases of a block, from its last slot on. -/
def releaseBlock (block : VarEntries) : List Addr :=
  (List.range block.usedSlots.toNat).reverse.filterMap block.data

/-- `msgpack_unserialize_var_destroy`: the zvals that are released, with an error or without. The
blocks of the other list are freed, but nothing is released there. -/
def msgpackUnserializeVarDestroy (_err : Bool) (firstDtor : List VarEntries) : List Addr :=
  firstDtor.flatMap releaseBlock

/-! ## The used slots -/

def VarEntries.used (block : VarEntries) : List (Option Addr) :=
  (List.range block.usedSlots.toNat).map block.data

def VarEntries.Counted (block : VarEntries) : Prop :=
  0 ≤ block.usedSlots ∧ block.usedSlots ≤ varEntriesMax

section

variable {block : VarEntries} {blocks : List VarEntries} {entry : Option Addr}

theorem length_used : block.used.length = block.usedSlots.toNat := by
  rw [VarEntries.used, List.length_map, List.length_range]

theorem map_update_range {data : Nat → Option Addr} {n i : Nat} (above : n ≤ i) :
    (List.range n).map (update data i entry) = (List.range n).map data := by
  apply List.map_congr_left
  intro j mem
  have below := List.mem_range.mp mem
  exact Function.update_of_ne (by omega) _ _

theorem used_append (counted : 0 ≤ block.usedSlots) :
    (block.append entry).used = block.used ++ [entry] := by
  have next : (block.usedSlots + 1).toNat = block.usedSlots.toNat + 1 := by omega
  simp only [VarEntries.used, VarEntries.append, next, List.range_succ, List.map_append,
    map_cons, List.map_nil, Function.update_self]
  rw [map_update_range (Nat.le_refl _)]

theorem used_popLoop (n : Nat) (counted : 0 ≤ block.usedSlots) :
    (popLoop n block).used = block.used.take (block.used.length - n) ∧
      0 ≤ (popLoop n block).usedSlots ∧ (popLoop n block).usedSlots ≤ block.usedSlots := by
  induction n generalizing block with
  | zero =>
    rw [popLoop, Nat.sub_zero, List.take_length]
    exact ⟨rfl, counted, Int.le_refl _⟩
  | succ n ih =>
    rw [popLoop]
    split_ifs with empty
    · have zero : block.usedSlots.toNat = 0 := by omega
      refine ⟨?_, Int.le_refl _, counted⟩
      rw [length_used, zero, Nat.zero_sub, List.take_zero]
      rfl
    · have positive : 0 ≤ block.usedSlots - 1 := by omega
      obtain ⟨used, lower, upper⟩ := @ih ⟨update block.data
        (block.usedSlots - 1).toNat none, block.usedSlots - 1⟩ positive
      refine ⟨?_, lower, by simp only at upper; omega⟩
      have last : block.usedSlots.toNat = (block.usedSlots - 1).toNat + 1 := by omega
      rw [used, length_used, length_used]
      simp only [VarEntries.used]
      rw [map_update_range (Nat.le_refl _), ← List.map_take, ← List.map_take, List.take_range,
        List.take_range]
      congr 2
      omega

theorem VarEntries.Counted.full_iff (counted : block.Counted) :
    block.used.length = varEntriesMax ↔ block.usedSlots = varEntriesMax := by
  have := counted.1
  rw [length_used]
  omega

theorem used_push {memory : Nat → Option Addr} (counted : ∀ b ∈ blocks, b.Counted) :
    (msgpackStackPush entry memory blocks).map VarEntries.used =
        pushDtor entry (blocks.map VarEntries.used) ∧
      ∀ b ∈ msgpackStackPush entry memory blocks, b.Counted := by
  induction blocks with
  | nil =>
    refine ⟨?_, ?_⟩
    · simp only [msgpackStackPush, map_cons, List.map_nil, pushDtor]
      rw [used_append (Int.le_refl 0)]
      rfl
    · intro b mem
      rw [List.mem_singleton.mp mem]
      simp [VarEntries.Counted, VarEntries.append, varEntriesMax]
  | cons block rest ih =>
    have here := counted block (.head _)
    obtain ⟨used, restCounted⟩ := ih fun b mem => counted b (.tail _ mem)
    have full_iff := here.full_iff
    rw [msgpackStackPush, map_cons, pushDtor]
    by_cases full : block.usedSlots = varEntriesMax
    · rw [if_pos full, if_pos (full_iff.mpr full), map_cons, used]
      refine ⟨rfl, ?_⟩
      exact List.forall_mem_cons.mpr ⟨here, restCounted⟩
    · rw [if_neg full, if_neg fun same => full (full_iff.mp same), map_cons,
        used_append here.1]
      refine ⟨rfl, ?_⟩
      intro b mem
      rcases List.mem_cons.mp mem with rfl | mem
      · obtain ⟨lower, upper⟩ := here
        exact ⟨by simp only [VarEntries.append]; omega, by simp only [VarEntries.append]; omega⟩
      · exact counted b (.tail _ mem)

theorem used_pop {count : Int} (counted : ∀ b ∈ blocks, b.Counted) :
    (msgpackStackPop count blocks).map VarEntries.used =
        popDtor count.toNat (blocks.map VarEntries.used) ∧
      ∀ b ∈ msgpackStackPop count blocks, b.Counted := by
  induction blocks with
  | nil => exact ⟨rfl, fun b mem => (nomatch mem)⟩
  | cons block rest ih =>
    have here := counted block (.head _)
    obtain ⟨used, restCounted⟩ := ih fun b mem => counted b (.tail _ mem)
    have full_iff := here.full_iff
    rw [msgpackStackPop, map_cons, popDtor]
    by_cases full : block.usedSlots = varEntriesMax
    · rw [if_pos full, if_pos (full_iff.mpr full), map_cons, used]
      refine ⟨rfl, ?_⟩
      exact List.forall_mem_cons.mpr ⟨here, restCounted⟩
    · rw [if_neg full, if_neg fun same => full (full_iff.mp same)]
      split_ifs with nothing
      · have zero : count.toNat = 0 := by omega
        rw [map_cons, zero, Nat.sub_zero, List.take_length]
        exact ⟨rfl, counted⟩
      · obtain ⟨popped, lower, upper⟩ := used_popLoop count.toNat here.1
        rw [map_cons, popped]
        refine ⟨rfl, ?_⟩
        exact List.forall_mem_cons.mpr
          ⟨⟨lower, upper.trans here.2⟩, fun b mem => counted b (.tail _ mem)⟩

theorem destroy_perm (err : Bool) : (msgpackUnserializeVarDestroy err blocks).Perm
      ((blocks.map VarEntries.used).flatten.filterMap id) := by
  induction blocks with
  | nil => exact .refl _
  | cons block rest ih =>
    rw [msgpackUnserializeVarDestroy, List.flatMap_cons, map_cons, flatten_cons,
      List.filterMap_append]
    refine List.Perm.append ?_ ih
    rw [releaseBlock, VarEntries.used, List.filterMap_map]
    exact (List.reverse_perm _).filterMap _

end

/-! ## Blocks that are filled one after the other -/

def Filled : List (List (Option Addr)) → Prop
  | [] => True
  | [block] => block.length ≤ varEntriesMax
  | block :: next :: rest => block.length = varEntriesMax ∧ Filled (next :: rest)

section

variable {entry : Option Addr} {rest : List (List (Option Addr))}

theorem Filled.tail {block : List (Option Addr)}
    (filled : Filled (block :: rest)) : Filled rest := by
  cases rest with
  | nil => trivial
  | cons next rest => exact filled.2

theorem Filled.cons_full {block : List (Option Addr)}
    (full : block.length = varEntriesMax) (filled : Filled rest) : Filled (block :: rest) := by
  cases rest with
  | nil => exact Nat.le_of_eq full
  | cons next rest => exact ⟨full, filled⟩

theorem Filled.eq_nil {block : List (Option Addr)}
    (filled : Filled (block :: rest)) (some_room : block.length ≠ varEntriesMax) :
    rest = [] ∧ block.length < varEntriesMax := by
  cases rest with
  | nil => exact ⟨rfl, Nat.lt_of_le_of_ne filled some_room⟩
  | cons next rest => exact absurd filled.1 some_room

theorem pushDtor_flatten {blocks : List (List (Option Addr))} (filled : Filled blocks) :
    (pushDtor entry blocks).flatten = blocks.flatten ++ [entry] ∧
      Filled (pushDtor entry blocks) := by
  induction blocks with
  | nil => exact ⟨rfl, by simp [pushDtor, Filled, varEntriesMax]⟩
  | cons block rest ih =>
    rw [pushDtor]
    split_ifs with full
    · obtain ⟨flat, filled'⟩ := ih filled.tail
      refine ⟨?_, .cons_full full filled'⟩
      rw [flatten_cons, flatten_cons, flat, List.append_assoc]
    · obtain ⟨rfl, room⟩ := filled.eq_nil full
      refine ⟨by simp, ?_⟩
      simp only [Filled, List.length_append, List.length_singleton]
      omega

theorem popDtor_flatten {blocks : List (List (Option Addr))} (filled : Filled blocks)
    (count : Nat) : (popDtor count blocks).flatten = blocks.flatten.take
        (blocks.flatten.length - min count (blocks.flatten.length % varEntriesMax)) ∧
      Filled (popDtor count blocks) := by
  induction blocks with
  | nil => exact ⟨by simp [popDtor], trivial⟩
  | cons block rest ih =>
    rw [popDtor]
    split_ifs with full
    · obtain ⟨flat, filled'⟩ := ih filled.tail
      refine ⟨?_, .cons_full full filled'⟩
      have small := Nat.mod_le rest.flatten.length varEntriesMax
      rw [flatten_cons, flatten_cons, flat, List.length_append, full,
        Nat.add_mod_left, Nat.add_sub_assoc (by omega), ← full, List.take_length_add_append]
    · obtain ⟨rfl, room⟩ := filled.eq_nil full
      rw [List.flatten_singleton, List.flatten_singleton, Nat.mod_eq_of_lt room]
      refine ⟨?_, ?_⟩
      · congr 1
        omega
      · simp only [Filled, List.length_take]
        omega

end

inductive Call where
  | push (rval : Addr) (save : Bool) (memory : Nat → Option Addr)
  | pop (count : Int)

/-- A call on the blocks of `first_dtor`. -/
def Call.perform (firstDtor : List VarEntries) : Call → List VarEntries
  | push rval save memory => msgpackStackPush (if save then some rval else none) memory firstDtor
  | pop count => msgpackStackPop count firstDtor

def Call.onStack (stack : List (Option Addr)) : Call → List (Option Addr)
  | push rval save _ => stack ++ [if save then some rval else none]
  | pop count => stack.take (stack.length - count.toNat)

/-- The calls of a run, from an initialised table. -/
def run (calls : List Call) : List VarEntries := calls.foldl Call.perform []

def stack (calls : List Call) : List (Option Addr) := calls.foldl Call.onStack []

def pending (firstDtor : List VarEntries) : List (Option Addr) :=
  (firstDtor.map VarEntries.used).flatten

/-- After each call the blocks hold what is on the stack, and what would then be released is what is
on the stack, each entry once. -/
def Pops (calls : List Call) : Prop :=
  ∀ front, front <+: calls → pending (run front) = stack front ∧
    ∀ err, (msgpackUnserializeVarDestroy err (run front)).Perm ((stack front).filterMap id)

def Call.Near (depth : Nat) : Call → Prop
  | push _ _ _ => True
  | pop count => depth < varEntriesMax ∨ count.toNat ≤ depth % varEntriesMax

variable {calls : List Call}

theorem run_concat (call : Call) : run (calls ++ [call]) = call.perform (run calls) :=
  List.foldl_concat _ _ _ _

theorem stack_concat (call : Call) : stack (calls ++ [call]) = call.onStack (stack calls) :=
  List.foldl_concat _ _ _ _

theorem invariant (calls : List Call) :
    (∀ b ∈ run calls, b.Counted) ∧ Filled ((run calls).map VarEntries.used) := by
  induction calls using List.reverseRecOn with
  | nil => exact ⟨fun b mem => (nomatch mem), trivial⟩
  | append_singleton calls call ih =>
    obtain ⟨counted, filled⟩ := ih
    rw [run_concat]
    cases call with
    | push rval save memory =>
      obtain ⟨used, counted'⟩ := used_push counted
      refine ⟨counted', ?_⟩
      rw [Call.perform, used]
      exact (pushDtor_flatten filled).2
    | pop count =>
      obtain ⟨used, counted'⟩ := @used_pop (run calls) count counted
      refine ⟨counted', ?_⟩
      rw [Call.perform, used]
      exact (popDtor_flatten filled _).2

theorem pending_push (rval : Addr) (save : Bool) (memory : Nat → Option Addr) :
    pending ((Call.push rval save memory).perform (run calls)) =
      pending (run calls) ++ [if save then some rval else none] := by
  obtain ⟨counted, filled⟩ := invariant calls
  rw [Call.perform, pending, (used_push counted).1]
  exact (pushDtor_flatten filled).1

theorem pending_pop (count : Int) :
    pending ((Call.pop count).perform (run calls)) = (pending (run calls)).take
      ((pending (run calls)).length -
        min count.toNat ((pending (run calls)).length % varEntriesMax)) := by
  obtain ⟨counted, filled⟩ := invariant calls
  rw [Call.perform, pending, (used_pop counted).1]
  exact (popDtor_flatten filled _).1

theorem pending_perform_iff (same : pending (run calls) = stack calls) (call : Call) :
    pending (call.perform (run calls)) = call.onStack (stack calls) ↔
      call.Near (stack calls).length := by
  cases call with
  | push rval save memory =>
    rw [pending_push, same]
    exact ⟨fun _ => trivial, fun _ => rfl⟩
  | pop count =>
    rw [pending_pop, same, Call.onStack, Call.Near]
    have small := Nat.mod_lt (stack calls).length (show 0 < varEntriesMax by decide)
    constructor
    · intro alike
      have lengths := congrArg List.length alike
      simp only [List.length_take] at lengths
      by_contra far
      have deep : (stack calls).length = varEntriesMax * ((stack calls).length / varEntriesMax) +
        (stack calls).length % varEntriesMax := (Nat.div_add_mod _ _).symm
      have rest : (stack calls).length % varEntriesMax < (stack calls).length := by omega
      omega
    · rintro (shallow | near)
      · rw [Nat.mod_eq_of_lt shallow]
        congr 1
        omega
      · rw [Nat.min_eq_left near]

theorem Pops.near (pops : Pops calls) {front : List Call} {call : Call}
    (begins : front ++ [call] <+: calls) : call.Near (stack front).length := by
  have before := (pops front ((List.prefix_append _ _).trans begins)).1
  have after := (pops _ begins).1
  rw [run_concat, stack_concat] at after
  exact (pending_perform_iff before call).mp after

/-- A run of pushes and pops is one of a stack exactly if every pop stays behind the last full block
of 1024 entries. -/
theorem pops_iff (calls : List Call) :
    Pops calls ↔ ∀ front call, front ++ [call] <+: calls → call.Near (stack front).length := by
  constructor
  · intro pops front call begins
    exact pops.near begins
  · intro near front begins
    have same : pending (run front) = stack front := by
      induction front using List.reverseRecOn with
      | nil => rfl
      | append_singleton front call ih =>
        have before := ih ((List.prefix_append _ _).trans begins)
        rw [run_concat, stack_concat]
        exact (pending_perform_iff before call).mpr (near front call begins)
    refine ⟨same, fun err => ?_⟩
    rw [← same]
    exact destroy_perm err

theorem length_stack_replicate (n : Nat) (rval : Addr) (memory : Nat → Option Addr) :
    (stack (List.replicate n (.push rval true memory))).length = n := by
  induction n with
  | zero => rfl
  | succ n ih =>
    rw [List.replicate_succ', stack_concat, Call.onStack, List.length_append, ih]
    rfl

/-- After 1024 pushes a pop takes nothing off. -/
theorem not_pops : ¬∀ calls, Pops calls := by
  intro pops
  have near := (pops (List.replicate 1024 (.push 1 true fun _ => none) ++ [.pop 1])).near
    (List.prefix_refl _)
  rw [length_stack_replicate, Call.Near] at near
  rcases near with shallow | near
  · exact absurd shallow (by decide)
  · exact absurd near (by decide)

end PhpExts.Msgpack.ZvalStack
