import Mathlib.Data.Finset.Card

/-!
# Records at addresses

A memory holds records at the addresses that are live. Reading and writing an address that
is not live is undefined; memory is given out at addresses that are not live.

`number` counts the live records of a kind, which is what a reference count says.
-/

namespace PhpExts.Library

/-- The live addresses, and what stands at each. -/
structure Memory (α : Type) where
  live : Finset Nat
  data : Nat → α

namespace Memory

variable {α : Type} {memory : Memory α} {address other : Nat} {record : α} {kind : α → Bool}

def read (memory : Memory α) (address : Nat) : Option α :=
  if address ∈ memory.live then some (memory.data address) else none

def write (memory : Memory α) (address : Nat) (record : α) : Memory α :=
  { memory with data := Function.update memory.data address record }

/-- A record at an address that is given out. -/
def allocate (memory : Memory α) (address : Nat) (record : α) : Memory α :=
  ⟨insert address memory.live, Function.update memory.data address record⟩

def free (memory : Memory α) (address : Nat) : Memory α :=
  { memory with live := memory.live.erase address }

/-- How many live records are of a kind. -/
def number (memory : Memory α) (kind : α → Bool) : Nat :=
  (memory.live.filter fun address => kind (memory.data address)).card

theorem read_eq_some (live : address ∈ memory.live) :
    memory.read address = some (memory.data address) := if_pos live

@[simp] theorem write_live : (memory.write address record).live = memory.live := rfl

@[simp] theorem allocate_live :
    (memory.allocate address record).live = insert address memory.live := rfl

@[simp] theorem free_live : (memory.free address).live = memory.live.erase address := rfl

@[simp] theorem free_data : (memory.free address).data = memory.data := rfl

@[simp] theorem write_data_self : (memory.write address record).data address = record :=
  Function.update_self _ _ _

theorem write_data_of_ne (differ : other ≠ address) :
    (memory.write address record).data other = memory.data other :=
  Function.update_of_ne differ _ _

@[simp] theorem allocate_data_self : (memory.allocate address record).data address = record :=
  Function.update_self _ _ _

theorem allocate_data_of_ne (differ : other ≠ address) :
    (memory.allocate address record).data other = memory.data other :=
  Function.update_of_ne differ _ _

theorem number_allocate (fresh : address ∉ memory.live) :
    (memory.allocate address record).number kind =
      memory.number kind + if kind record then 1 else 0 := by
  have others : (memory.live.filter fun any => kind ((memory.allocate address record).data any)) =
      memory.live.filter fun any => kind (memory.data any) :=
    Finset.filter_congr fun any live => by
      have differ : any ≠ address := fun same => fresh (same ▸ live)
      rw [allocate_data_of_ne differ]
  unfold number
  rw [allocate_live, Finset.filter_insert, others, allocate_data_self]
  by_cases own : kind record = true
  · rw [if_pos own, if_pos own,
      Finset.card_insert_of_notMem fun mem => fresh (Finset.mem_filter.mp mem).1]
  · rw [if_neg own, if_neg own, Nat.add_zero]

theorem number_free (live : address ∈ memory.live) :
    (memory.free address).number kind + (if kind (memory.data address) then 1 else 0) =
      memory.number kind := by
  unfold number
  rw [free_live, free_data, Finset.filter_erase]
  by_cases own : kind (memory.data address) = true
  · rw [if_pos own, Finset.card_erase_add_one (Finset.mem_filter.mpr ⟨live, own⟩)]
  · have absent : address ∉ memory.live.filter fun any => kind (memory.data any) :=
      fun mem => own (Finset.mem_filter.mp mem).2
    rw [if_neg own, Nat.add_zero, Finset.erase_eq_of_notMem absent]

theorem number_pos (live : address ∈ memory.live) (own : kind (memory.data address) = true) :
    0 < memory.number kind :=
  Finset.card_pos.mpr ⟨address, Finset.mem_filter.mpr ⟨live, own⟩⟩

theorem number_eq_zero (none : ∀ address ∈ memory.live, kind (memory.data address) = false) :
    memory.number kind = 0 :=
  Finset.card_eq_zero.mpr (Finset.filter_eq_empty_iff.mpr fun address live own => by
    rw [none address live] at own
    cases own)

end Memory

end PhpExts.Library
