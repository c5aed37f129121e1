import Mathlib

/-!
# Byte strings, machine words and the ordered hash table

A PHP array is a `HashTable`: its buckets in insertion order, each under an
integer or a string key, together with the index the next append will use. The
engine is built for a `long` of four or of eight bytes; `size_t` and pointers
have the same width.

The engine's functions are modelled by what they are documented to do. Storing
under a key that is present replaces the value in place and hands back the value
displaced; otherwise the bucket is appended. `symtableUpdate` is the entry point
for keys that come from PHP code: a string that is the canonical decimal
notation of a `long` is stored as that integer.
-/

namespace PhpExts.Zend

abbrev Bytes := List UInt8

/-! ## Machine words -/

/-- The width of `long`, `size_t` and pointers: `SIZEOF_LONG` is 4 or 8. -/
inductive WordSize where
  | four
  | eight
  deriving DecidableEq

namespace WordSize

/-- `SIZEOF_LONG`. -/
def bytes : WordSize → Nat
  | four => 4
  | eight => 8

/-- The number of values of a `size_t`. -/
def modulus (w : WordSize) : Nat := 256 ^ w.bytes

def longMax (w : WordSize) : Int := w.modulus / 2 - 1

def longMin (w : WordSize) : Int := -(w.modulus / 2)

/-- Addition of `size_t` values. -/
def add (w : WordSize) (a b : Nat) : Nat := (a + b) % w.modulus

/-- Subtraction of `size_t` values. -/
def sub (w : WordSize) (a b : Nat) : Nat := (a + (w.modulus - b)) % w.modulus

/-- The `long` with the bits of an integer: conversion modulo the word. -/
def toLong (w : WordSize) (n : Int) : Int :=
  (n + w.modulus / 2) % w.modulus - w.modulus / 2

theorem modulus_pos (w : WordSize) : 0 < w.modulus := by cases w <;> decide

theorem add_eq {w : WordSize} {a b : Nat} (fits : a + b < w.modulus) : w.add a b = a + b :=
  Nat.mod_eq_of_lt fits

theorem sub_eq {w : WordSize} {a b : Nat} (le : b ≤ a) (fits : a < w.modulus) :
    w.sub a b = a - b := by
  have : a + (w.modulus - b) = a - b + w.modulus := by omega
  rw [sub, this, Nat.add_mod_right, Nat.mod_eq_of_lt (by omega)]

theorem toLong_eq {w : WordSize} {n : Int} (low : w.longMin ≤ n) (high : n ≤ w.longMax) :
    w.toLong n = n := by
  unfold longMin at low
  unfold longMax at high
  rw [toLong, Int.emod_eq_of_lt (by omega) (by omega)]
  omega

end WordSize

inductive HashKey where
  | index (h : Int)
  | string (s : Bytes)
  deriving DecidableEq

/-- The value of a string of decimal digits. -/
def decimal (digits : Bytes) : Nat := digits.foldl (fun n d => n * 10 + (d.toNat - 48)) 0

/-- `ZEND_HANDLE_NUMERIC`: the integer a key is the canonical decimal notation
of, if it is one. A sign is allowed, a leading zero and `-0` are not. -/
def handleNumeric (w : WordSize) (key : Bytes) : Option Int :=
  let negative := key.head? = some 45
  let digits := if negative then key.tail else key
  if digits = [] ∨ ¬ digits.all (fun d => 48 ≤ d ∧ d ≤ 57) then none
  else if digits.head? = some 48 ∧ 1 < key.length then none
  else if negative then
    if (decimal digits : Int) ≤ w.longMax + 1 then some (-(decimal digits)) else none
  else if (decimal digits : Int) ≤ w.longMax then some (decimal digits)
  else none

def symtableKey (w : WordSize) (key : Bytes) : HashKey :=
  match handleNumeric w key with
  | some h => .index h
  | none => .string key

theorem symtableKey_of_not_numeric {w : WordSize} {key : Bytes}
    (plain : handleNumeric w key = none) : symtableKey w key = .string key := by
  rw [symtableKey, plain]

/-- Buckets in insertion order, and the index of the next append. -/
structure HashTable (V : Type) where
  buckets : List (HashKey × V)
  nNextFreeElement : Nat

namespace HashTable

variable {V : Type}

/-- The table `zend_hash_init` makes. -/
def empty : HashTable V := ⟨[], 0⟩

def numElements (t : HashTable V) : Nat := t.buckets.length

def keys (t : HashTable V) : List HashKey := t.buckets.map Prod.fst

def values (t : HashTable V) : List V := t.buckets.map Prod.snd

/-- `zend_hash_find` and `zend_hash_index_find`. -/
def find (t : HashTable V) (key : HashKey) : Option V := t.buckets.lookup key

/-- The index of the next append after a store under `key`. -/
def bump (w : WordSize) (next : Nat) : HashKey → Nat
  | .string _ => next
  | .index h =>
    if (next : Int) ≤ h then (if h < w.longMax then (h + 1).toNat else w.longMax.toNat) else next

/-- Put `v` in the bucket of `key`, or append a bucket. -/
def store : List (HashKey × V) → HashKey → V → List (HashKey × V)
  | [], key, v => [(key, v)]
  | (k, old) :: rest, key, v => if k = key then (k, v) :: rest else (k, old) :: store rest key v

/-- `zend_hash_update` and `zend_hash_index_update`. -/
def update (w : WordSize) (t : HashTable V) (key : HashKey) (v : V) : HashTable V :=
  ⟨store t.buckets key v, bump w t.nNextFreeElement key⟩

def symtableUpdate (w : WordSize) (t : HashTable V) (key : Bytes) (v : V) : HashTable V :=
  t.update w (symtableKey w key) v

/-- `zend_hash_next_index_insert`; it fails when the index is taken. -/
def nextIndexInsert (w : WordSize) (t : HashTable V) (v : V) : Option (HashTable V) :=
  match t.find (.index t.nNextFreeElement) with
  | some _ => none
  | none => some (t.update w (.index t.nNextFreeElement) v)

theorem store_of_notMem {buckets : List (HashKey × V)} {key : HashKey} {v : V}
    (fresh : key ∉ buckets.map Prod.fst) : store buckets key v = buckets ++ [(key, v)] := by
  induction buckets with
  | nil => rfl
  | cons bucket rest ih =>
    rw [List.map_cons, List.mem_cons, not_or] at fresh
    rw [store, if_neg (Ne.symm fresh.1), ih fresh.2, List.cons_append]

theorem lookup_eq_none_iff {buckets : List (HashKey × V)} {key : HashKey} :
    buckets.lookup key = none ↔ key ∉ buckets.map Prod.fst := by
  induction buckets with
  | nil => simp
  | cons bucket rest ih =>
    rw [List.lookup_cons, List.map_cons, List.mem_cons, not_or]
    by_cases same : key = bucket.1
    · simp [same]
    · rw [beq_eq_false_iff_ne.mpr same]
      exact ih.trans (by simp only [same, not_false_eq_true, true_and])

theorem update_of_notMem {w : WordSize} {t : HashTable V} {key : HashKey} {v : V}
    (fresh : key ∉ t.keys) : (t.update w key v).buckets = t.buckets ++ [(key, v)] :=
  store_of_notMem fresh

end HashTable

end PhpExts.Zend
