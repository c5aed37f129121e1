import PhpExts.Swoole.MysqlWire

/-!
# What a MySQL packet is read for

`mysql_decode_field` and `mysql_decode_row` with every byte they read of a packet and every byte
they write to the buffer of a field, which has the length of the packet. The end of a string is
compared with that of the packet in 64 bits, where a length that the server has chosen wraps
around; and a number of three octets is asked for one octet more than it has. Where neither comes
up nothing outside is read or written, and a string that does not fit is found at once
(`decodes_iff_regular`).
-/

namespace PhpExts.Swoole.Mysql

open PhpExts.Zend
open Serialize (leNat leBytes)
open Option (bind_some)

/-! ## Reading and writing -/

/-- Why a function does not return what it decodes: one of its two errors, or it has read or
written outside. -/
inductive Fault where
  | badLcb
  | lenOverBuffer
  | outside
  deriving DecidableEq

def readAt (buf : Bytes) (i n : Nat) : Except Fault Bytes :=
  if i + n ≤ buf.length then .ok ((buf.drop i).take n) else .error .outside

def byteAt (buf : Bytes) (i : Nat) : Except Fault UInt8 :=
  match buf[i]? with
  | none => .error .outside
  | some byte => .ok byte

/-- `mysql_length_coded_binary` at a place in the packet. -/
def lengthCodedBinary (buf : Bytes) (i : Nat) : Except Fault (Nat × Bool × Nat) :=
  let len := buf.length - i
  if len < 1 then .error .badLcb
  else do
    let byte ← byteAt buf i
    if byte = 251 then .ok (0, true, 1)
    else if byte = 252 then
      if len < 3 then .error .badLcb
      else do
        let m ← readAt buf (i + 1) 2
        .ok (leNat m, false, 3)
    else if byte = 253 then
      if len < 5 then .error .badLcb
      else do
        let m ← readAt buf (i + 1) 3
        .ok (leNat m, false, 4)
    else if byte = 254 then
      if len < 9 then .error .badLcb
      else do
        let m ← readAt buf (i + 1) 8
        .ok (leNat m, false, 9)
    else .ok (byte.toNat, false, 1)

section

variable {κ σ : Type} (buf : Bytes) (use : κ → σ → Nat → Nat → Bool → Except Fault σ)

/-- The strings of a packet, one after the other: the length, whether the string ends in the packet,
and what is done with it. An error comes with the number of its string. -/
def decodeStrings : List κ → Nat → Nat → σ → Except (Nat × Fault) (σ × Nat)
  | [], _, i, state => .ok (state, i)
  | key :: keys, number, i, state =>
    match lengthCodedBinary buf i with
    | .error fault => .error (number, fault)
    | .ok (size, nul, count) =>
      -- `i + size > len`, which is unsigned
      if buf.length < (i + count + size) % 2 ^ 64 then .error (number, .lenOverBuffer)
      else
        match use key state (i + count) size nul with
        | .error fault => .error (number, fault)
        | .ok state =>
          decodeStrings keys (number + 1) ((i + count + size) % 2 ^ 64) state

end

/-! ## The two functions -/

def copyString (buf : Bytes) (_ : Unit) (state : List Bytes × Nat) (i size : Nat) (_ : Bool) :
    Except Fault (List Bytes × Nat) := do
  let bytes ← readAt buf i size
  if state.2 + size + 1 ≤ buf.length then .ok (state.1 ++ [bytes], state.2 + (size + 1))
  else .error .outside

def decodeFixed (buf : Bytes) (i : Nat) : Except Fault (Nat × Nat × Nat × Nat × Nat) := do
  let charsetnr ← readAt buf (i + 1) 2
  let length ← readAt buf (i + 3) 4
  let type ← byteAt buf (i + 7)
  let flags ← readAt buf (i + 8) 2
  let decimals ← byteAt buf (i + 10)
  .ok (leNat charsetnr, leNat length, type.toNat, leNat flags,
    if decimals.toNat < 128 then decimals.toNat else decimals.toNat + 0xffffff00)

/-- `mysql_decode_field`, with what it returns. The part of fixed length has the number 6 and the
default value the number 7. -/
def decodeField (buf : Bytes) : Except (Nat × Fault) (MysqlField × Nat) :=
  match decodeStrings buf (copyString buf) (List.replicate 6 ()) 0 0 ([], 0) with
  | .error fault => .error fault
  | .ok ((strings, wh), i) =>
    if buf.length < i + 13 then .error (6, .lenOverBuffer)
    else
      match decodeFixed buf i with
      | .error fault => .error (6, fault)
      | .ok (charsetnr, length, type, flags, decimals) =>
        let col : MysqlField :=
          ⟨strings.getD 0 [], strings.getD 1 [], strings.getD 2 [], strings.getD 3 [],
            strings.getD 4 [], strings.getD 5 [], charsetnr, length, type, flags, decimals, none⟩
        if buf.length = i + 13 then .ok (col, wh)
        else
          match decodeStrings buf (copyString buf) [()] 7 (i + 13) ([], wh) with
          | .error fault => .error fault
          | .ok ((strings, wh), _) => .ok ({ col with defaultValue := strings.head? }, wh)

def storeValue (buf : Bytes) (w : WordSize) (column : MysqlField) (row : Row) (i len : Nat)
    (nul : Bool) : Except Fault Row :=
  if nul then .ok (addAssoc w row column.name none)
  else
    match stored column.type with
    | .null => .ok (addAssoc w row column.name none)
    | .string => do
      let value ← readAt buf i len
      .ok (addAssoc w row column.name (some value))
    | .nothing => .ok row

/-- `mysql_decode_row`, with how much is read. -/
def decodeRow (w : WordSize) (columns : List MysqlField) (buf : Bytes) :
    Except (Nat × Fault) (Row × Nat) :=
  decodeStrings buf (storeValue buf w) columns 0 0 .empty

/-! ## What the packet says -/

/-- A length coded integer that is complete: the number, whether it stands for `NULL`, and how many
octets it has. The protocol does not use 255, which stands for itself. -/
def lengthCoded : Bytes → Option (Nat × Bool × Nat)
  | [] => none
  | byte :: m =>
    if byte = 251 then some (0, true, 1)
    else if byte = 252 then
      if m.length < 2 then none else some (leNat (m.take 2), false, 3)
    else if byte = 253 then
      if m.length < 3 then none else some (leNat (m.take 3), false, 4)
    else if byte = 254 then
      if m.length < 8 then none else some (leNat (m.take 8), false, 9)
    else some (byte.toNat, false, 1)

def afterString (buf : Bytes) (i : Nat) : Option Nat :=
  match lengthCoded (buf.drop i) with
  | none => none
  | some (size, _, count) => if i + count + size ≤ buf.length then some (i + count + size) else none

def afterStrings (buf : Bytes) : Nat → Nat → Option Nat
  | i, 0 => some i
  | i, n + 1 => (afterStrings buf i n).bind (afterString buf)

/-- Where a part of a field ends, if it fits: six strings, the part of fixed length, and the default
value, where there is one. -/
def afterFieldPart (buf : Bytes) (part i : Nat) : Option Nat :=
  if part = 6 then if i + 13 ≤ buf.length then some (i + 13) else none
  else if part = 7 ∧ i = buf.length then some i
  else afterString buf i

def afterFieldParts (buf : Bytes) : Nat → Option Nat
  | 0 => some 0
  | part + 1 => (afterFieldParts buf part).bind (afterFieldPart buf part)

/-- A decoder reads and writes inside, finds a part that does not fit at once, and accepts every
length coded integer. `position` is where a part starts if those before it fit, `after` where it
ends if it fits too, and `isString` whether it has a length. -/
structure Decodes {α : Type} (buf : Bytes) (parts : Nat) (position : Nat → Option Nat)
    (after : Nat → Nat → Option Nat) (isString : Nat → Nat → Prop)
    (result : Except (Nat × Fault) α) : Prop where
  inside : ∀ part, result ≠ .error (part, .outside)
  fails : ∀ part, (∃ fault, result = .error (part, fault)) ↔
    part < parts ∧ ∃ i, position part = some i ∧ after part i = none
  integers : ∀ part i number, part < parts → position part = some i → isString part i →
    lengthCoded (buf.drop i) = some number → lengthCodedBinary buf i = .ok number

def Regular (buf : Bytes) (i : Nat) : Prop :=
  ∀ size nul count, lengthCoded (buf.drop i) = some (size, nul, count) →
    (buf[i]? = some 253 → i + 4 ≠ buf.length) ∧ i + count + size < 2 ^ 64

section

variable {buf : Bytes} {i : Nat}

theorem drop_eq_cons {byte : UInt8} {m : Bytes} (rest : buf.drop i = byte :: m) :
    buf[i]? = some byte ∧ buf.drop (i + 1) = m ∧ buf.length = i + 1 + m.length := by
  have length := congrArg List.length rest
  rw [List.length_drop, List.length_cons] at length
  refine ⟨?_, ?_, by omega⟩
  · rw [← List.head?_drop, rest, List.head?_cons]
  · rw [← List.drop_drop, rest, List.drop_one, List.tail_cons]

theorem readAt_of_le {n : Nat} (inside : i + n ≤ buf.length) :
    readAt buf i n = .ok ((buf.drop i).take n) := if_pos inside

theorem lengthCodedBinary_eq (buf : Bytes) (i : Nat) : lengthCodedBinary buf i =
      match mysqlLcbLl (buf.drop i) with
      | none => .error .badLcb
      | some number => .ok number := by
  rw [lengthCodedBinary]
  cases rest : buf.drop i with
  | nil =>
    have short : buf.length - i < 1 := by
      have length := congrArg List.length rest
      rw [List.length_drop, List.length_nil] at length
      omega
    rw [if_pos short]
    rfl
  | cons byte m =>
    obtain ⟨here, behind, length⟩ := drop_eq_cons rest
    have left : buf.length - i = m.length + 1 := by omega
    have reads {n : Nat} (enough : n ≤ m.length) : readAt buf (i + 1) n = .ok (m.take n) := by
      rw [readAt_of_le (by omega), behind]
    rw [if_neg (by omega), byteAt, here, left, mysqlLcbLl]
    simp only [mysqlUint2korr, mysqlUint3korr, mysqlUint8korr]
    change (if byte = 251 then _ else _ : Except Fault (Nat × Bool × Nat)) = _
    split_ifs with null two short three short' eight short''
    · rfl
    · rfl
    · rw [reads (by omega)]
      rfl
    · rfl
    · rw [reads (by omega)]
      rfl
    · rfl
    · rw [reads (by omega)]
      rfl
    · rfl

theorem mysqlLcbLl_eq {byte : UInt8} {m : Bytes} (other : byte = 253 → m.length ≠ 3) :
    mysqlLcbLl (byte :: m) = lengthCoded (byte :: m) := by
  have two : (m.length + 1 < 3) = (m.length < 2) := propext (by omega)
  have eight : (m.length + 1 < 9) = (m.length < 8) := propext (by omega)
  have three (isThree : byte = 253) : (m.length + 1 < 5) = (m.length < 3) := by
    have different := other isThree
    exact propext (by omega)
  simp only [mysqlLcbLl, lengthCoded, mysqlUint2korr, mysqlUint3korr, mysqlUint8korr, two, eight]
  by_cases isThree : byte = 253
  · simp only [three isThree]
  · simp only [if_neg isThree]

theorem lengthCodedBinary_of_some {number : Nat × Bool × Nat}
    (coded : lengthCoded (buf.drop i) = some number)
    (other : buf[i]? = some 253 → i + 4 ≠ buf.length) : lengthCodedBinary buf i = .ok number := by
  rw [lengthCodedBinary_eq]
  cases rest : buf.drop i with
  | nil => rw [rest] at coded; cases coded
  | cons byte m =>
    obtain ⟨here, -, length⟩ := drop_eq_cons rest
    rw [rest] at coded
    rw [mysqlLcbLl_eq, coded]
    rintro rfl three
    exact other here (by omega)

theorem lengthCodedBinary_of_none (coded : lengthCoded (buf.drop i) = none) :
    lengthCodedBinary buf i = .error .badLcb := by
  rw [lengthCodedBinary_eq]
  cases rest : buf.drop i with
  | nil => rfl
  | cons byte m =>
    rw [rest] at coded
    rw [mysqlLcbLl_eq, coded]
    rintro rfl three
    simp [lengthCoded, three] at coded

theorem lengthCodedBinary_short (here : buf[i]? = some 253) (last : i + 4 = buf.length) :
    lengthCodedBinary buf i = .error .badLcb := by
  rw [lengthCodedBinary_eq]
  cases rest : buf.drop i with
  | nil => rfl
  | cons byte m =>
    obtain ⟨isByte, -, length⟩ := drop_eq_cons rest
    obtain rfl := Option.some.inj (isByte.symm.trans here)
    have three : m.length = 3 := by omega
    simp [mysqlLcbLl, three]

theorem leNat_lt (bytes : Bytes) : leNat bytes < 256 ^ bytes.length := by
  induction bytes with
  | nil => exact Nat.one_pos
  | cons byte bytes ih =>
    have bound := byte.toNat_lt
    rw [leNat, List.length_cons, Nat.pow_succ]
    omega

theorem lengthCoded_bounds {size count : Nat} {nul : Bool}
    (coded : lengthCoded (buf.drop i) = some (size, nul, count)) :
    0 < count ∧ i + count ≤ buf.length ∧ size < 2 ^ 64 := by
  cases rest : buf.drop i with
  | nil => rw [rest] at coded; cases coded
  | cons byte m =>
    obtain ⟨-, -, length⟩ := drop_eq_cons rest
    have small (n : Nat) : leNat (m.take n) < 256 ^ n :=
      Nat.lt_of_lt_of_le (leNat_lt _)
        (Nat.pow_le_pow_right (by decide) (List.length_take_le n m))
    rw [rest, lengthCoded] at coded
    split_ifs at coded with null two short three short eight short
    all_goals
      simp only [Option.some.injEq, Prod.mk.injEq] at coded
      obtain ⟨rfl, -, rfl⟩ := coded
    · omega
    · have bound := small 2
      omega
    · have bound := small 3
      omega
    · have bound := small 8
      omega
    · have bound := byte.toNat_lt
      omega

theorem afterString_eq_some {j : Nat} (fits : afterString buf i = some j) :
    ∃ size nul count, lengthCoded (buf.drop i) = some (size, nul, count) ∧
      j = i + count + size ∧ j ≤ buf.length := by
  rw [afterString] at fits
  cases coded : lengthCoded (buf.drop i) with
  | none => rw [coded] at fits; cases fits
  | some number =>
    obtain ⟨size, nul, count⟩ := number
    rw [coded] at fits
    simp only at fits
    split at fits
    case isTrue inside => exact ⟨size, nul, count, rfl, (Option.some.inj fits).symm,
      Option.some.inj fits ▸ inside⟩
    case isFalse => cases fits

theorem afterStrings_succ (n : Nat) :
    afterStrings buf i (n + 1) = (afterString buf i).bind fun j => afterStrings buf j n := by
  induction n generalizing i with
  | zero =>
    rw [afterStrings, afterStrings, bind_some]
    cases afterString buf i <;> rfl
  | succ n ih =>
    rw [afterStrings, ih, Option.bind_assoc]
    rfl

end

section

variable {κ σ : Type} {buf : Bytes} {use : κ → σ → Nat → Nat → Bool → Except Fault σ}

structure Uses (buf : Bytes) (use : κ → σ → Nat → Nat → Bool → Except Fault σ)
    (kept : σ → Nat → Prop) : Prop where
  uses : ∀ key state before i size nul, kept state before → before < i → i + size ≤ buf.length →
    ∃ state', use key state i size nul = .ok state' ∧ kept state' (i + size)
  faults : ∀ key state i size nul fault, use key state i size nul = .error fault → fault = .outside

variable {kept : σ → Nat → Prop}

theorem decodeStrings_fits (uses : Uses buf use kept) (short : buf.length < 2 ^ 24) {i j : Nat}
    {state : σ} (keeps : kept state i) (fits : afterString buf i = some j)
    (regular : Regular buf i) (key : κ) (keys : List κ) (number : Nat) :
    ∃ state', kept state' j ∧ decodeStrings buf use (key :: keys) number i state =
      decodeStrings buf use keys (number + 1) j state' := by
  obtain ⟨size, nul, count, coded, rfl, inside⟩ := afterString_eq_some fits
  have bounds := lengthCoded_bounds coded
  have read := lengthCodedBinary_of_some coded (regular size nul count coded).1
  obtain ⟨state', used, keeps'⟩ := uses.uses key state i (i + count) size nul keeps (by omega) inside
  have exact_ : (i + count + size) % 2 ^ 64 = i + count + size := Nat.mod_eq_of_lt (by omega)
  refine ⟨state', keeps', ?_⟩
  rw [decodeStrings, read]
  simp only [exact_, if_neg (Nat.not_lt.mpr inside), used]

theorem decodeStrings_beyond {i : Nat} (beyond : afterString buf i = none)
    (regular : Regular buf i) (key : κ) (keys : List κ) (number : Nat) (state : σ) :
    ∃ fault, fault ≠ .outside ∧
      decodeStrings buf use (key :: keys) number i state = .error (number, fault) := by
  cases coded : lengthCoded (buf.drop i) with
  | none =>
    refine ⟨.badLcb, nofun, ?_⟩
    rw [decodeStrings, lengthCodedBinary_of_none coded]
  | some value =>
    obtain ⟨size, nul, count⟩ := value
    obtain ⟨other, bound⟩ := regular size nul count coded
    rw [afterString, coded] at beyond
    have long : buf.length < (i + count + size) % 2 ^ 64 := by
      rw [Nat.mod_eq_of_lt bound]
      by_contra inside
      simp only [if_pos (Nat.not_lt.mp inside)] at beyond
      cases beyond
    refine ⟨.lenOverBuffer, nofun, ?_⟩
    rw [decodeStrings, lengthCodedBinary_of_some coded other]
    simp only [if_pos long]

theorem decodeStrings_number {keys : List κ} {number i part : Nat} {state : σ} {fault : Fault}
    (result : decodeStrings buf use keys number i state = .error (part, fault)) :
    number ≤ part ∧ part < number + keys.length := by
  induction keys generalizing number i state with
  | nil => cases result
  | cons key keys ih =>
    have here {fault'} (same : (.error (number, fault') : Except (Nat × Fault) (σ × Nat)) =
        .error (part, fault)) : number ≤ part ∧ part < number + (keys.length + 1) := by
      obtain ⟨rfl, -⟩ := Prod.mk.inj (Except.error.inj same)
      omega
    rw [decodeStrings] at result
    rw [List.length_cons]
    split at result
    · exact here result
    · split at result
      · exact here result
      · split at result
        · exact here result
        · have later := ih result
          omega

theorem decodeStrings_wraps (uses : Uses buf use kept) {i size count : Nat} {nul : Bool}
    (short : buf.length < 2 ^ 24) (coded : lengthCoded (buf.drop i) = some (size, nul, count))
    (other : buf[i]? = some 253 → i + 4 ≠ buf.length) (wraps : 2 ^ 64 ≤ i + count + size)
    (key : κ) (keys : List κ) (number : Nat) (state : σ) {fault : Fault}
    (result : decodeStrings buf use (key :: keys) number i state = .error (number, fault)) :
    fault = .outside := by
  have bounds := lengthCoded_bounds coded
  have around : (i + count + size) % 2 ^ 64 = i + count + size - 2 ^ 64 := by
    rw [Nat.mod_eq_sub_mod wraps, Nat.mod_eq_of_lt (by omega)]
  have passes : ¬ buf.length < (i + count + size) % 2 ^ 64 := by
    rw [around]
    omega
  rw [decodeStrings, lengthCodedBinary_of_some coded other] at result
  simp only [if_neg passes] at result
  split at result
  case h_1 fault' used =>
    obtain ⟨-, rfl⟩ := Prod.mk.inj (Except.error.inj result)
    exact uses.faults _ _ _ _ _ _ used
  case h_2 state' used =>
    have later := (decodeStrings_number result).1
    omega

theorem decodeStrings_reach (uses : Uses buf use kept) (short : buf.length < 2 ^ 24)
    {keys behind : List κ} {number i j : Nat} {state : σ} (keeps : kept state i)
    (fits : afterStrings buf i keys.length = some j)
    (regular : ∀ n k, n < keys.length → afterStrings buf i n = some k → Regular buf k) :
    ∃ state', kept state' j ∧ decodeStrings buf use (keys ++ behind) number i state =
      decodeStrings buf use behind (number + keys.length) j state' := by
  induction keys generalizing number i state with
  | nil =>
    cases fits
    exact ⟨state, keeps, rfl⟩
  | cons key keys ih =>
    rw [List.length_cons, afterStrings_succ] at fits
    obtain ⟨k, first, rest⟩ := Option.bind_eq_some_iff.mp fits
    obtain ⟨state', keeps', step⟩ := decodeStrings_fits uses short keeps first
      (regular 0 i (by simp) rfl) key (keys ++ behind) number
    obtain ⟨state'', keeps'', reached⟩ := @ih (number + 1) k state' keeps' rest
      fun n l bound position => regular (n + 1) l (by simpa using bound) (by
        rw [afterStrings_succ, first]
        exact position)
    refine ⟨state'', keeps'', ?_⟩
    rw [List.cons_append, step, reached, List.length_cons, Nat.add_right_comm, Nat.add_assoc]

theorem decodeStrings_regular (uses : Uses buf use kept) (short : buf.length < 2 ^ 24)
    {keys : List κ} {number i : Nat} {state : σ} (keeps : kept state i)
    (regular : ∀ n k, n < keys.length → afterStrings buf i n = some k → Regular buf k) :
    (∃ state' j, afterStrings buf i keys.length = some j ∧ kept state' j ∧
      decodeStrings buf use keys number i state = .ok (state', j)) ∨
    ∃ n j fault, n < keys.length ∧ afterStrings buf i n = some j ∧ afterString buf j = none ∧
      fault ≠ .outside ∧ decodeStrings buf use keys number i state = .error (number + n, fault) := by
  induction keys generalizing number i state with
  | nil => exact .inl ⟨state, i, rfl, keeps, rfl⟩
  | cons key keys ih =>
    have here := regular 0 i (by simp) rfl
    cases first : afterString buf i with
    | none =>
      obtain ⟨fault, notOutside, result⟩ := decodeStrings_beyond first here key keys number state
      exact .inr ⟨0, i, fault, by simp, rfl, first, notOutside, result⟩
    | some k =>
      obtain ⟨state', keeps', step⟩ :=
        decodeStrings_fits uses short keeps first here key keys number
      have rest := @ih (number + 1) k state' keeps' fun n l bound position =>
        regular (n + 1) l (by simpa using bound) (by rw [afterStrings_succ, first]; exact position)
      rw [step, List.length_cons, afterStrings_succ, first, bind_some]
      rcases rest with ⟨state'', j, fits, keeps'', result⟩ |
        ⟨n, j, fault, bound, fits, beyond, notOutside, result⟩
      · exact .inl ⟨state'', j, fits, keeps'', result⟩
      · refine .inr ⟨n + 1, j, fault, by omega, ?_, beyond, notOutside, ?_⟩
        · rw [afterStrings_succ, first]
          exact fits
        · rw [result]
          congr 2
          omega

theorem regular_of_found (uses : Uses buf use kept) (short : buf.length < 2 ^ 24)
    {keys : List κ} {number i : Nat} {state : σ} (keeps : kept state i)
    (integers : ∀ n j value, n < keys.length → afterStrings buf i n = some j →
      lengthCoded (buf.drop j) = some value → lengthCodedBinary buf j = .ok value)
    (found : ∀ n j, n < keys.length → afterStrings buf i n = some j → afterString buf j = none →
      ∃ fault, fault ≠ .outside ∧
        decodeStrings buf use keys number i state = .error (number + n, fault)) :
    ∀ n j, n < keys.length → afterStrings buf i n = some j → Regular buf j := by
  intro n
  induction n using Nat.strongRecOn with
  | ind n ih =>
    intro j bound position size nul count coded
    have read := integers n j _ bound position coded
    have other : buf[j]? = some 253 → j + 4 ≠ buf.length := by
      intro here last
      rw [lengthCodedBinary_short here last] at read
      cases read
    refine ⟨other, ?_⟩
    by_contra wraps
    have beyond : afterString buf j = none := by
      rw [afterString, coded]
      simp only
      rw [if_neg (by omega)]
    obtain ⟨fault, notOutside, result⟩ := found n j bound position beyond
    have split : keys = keys.take n ++ keys[n] :: keys.drop (n + 1) := by
      rw [List.getElem_cons_drop, List.take_append_drop]
    have taken : (keys.take n).length = n := by
      rw [List.length_take]
      omega
    obtain ⟨state', -, reached⟩ := @decodeStrings_reach κ σ buf use kept uses short
      (keys.take n) (keys[n] :: keys.drop (n + 1)) number i j state keeps
      (by rw [taken]; exact position)
      (fun m k earlier before => ih m (taken ▸ earlier) k (by omega) before)
    rw [split, reached, taken] at result
    exact notOutside (decodeStrings_wraps uses short coded other (Nat.not_lt.mp wraps) _ _ _ _
      result)

end

section

variable {α : Type} {buf : Bytes} {parts : Nat} {position : Nat → Option Nat}
  {after : Nat → Nat → Option Nat}

theorem position_before (steps : ∀ part, position (part + 1) = (position part).bind (after part))
    {part later j : Nat} (before : part ≤ later) (there : position later = some j) :
    ∃ i, position part = some i := by
  induction before generalizing j with
  | refl => exact ⟨j, there⟩
  | step _ ih =>
    rw [steps] at there
    obtain ⟨i, earlier, -⟩ := Option.bind_eq_some_iff.mp there
    exact ih earlier

theorem first_beyond (steps : ∀ part, position (part + 1) = (position part).bind (after part))
    {part other i j : Nat} (here : position part = some i) (beyond : after part i = none)
    (there : position other = some j) : other ≤ part := by
  by_contra later
  obtain ⟨k, behind⟩ := position_before steps (Nat.not_le.mp later) there
  rw [steps, here, bind_some, beyond] at behind
  cases behind

theorem fails_iff (steps : ∀ part, position (part + 1) = (position part).bind (after part))
    {result : Except (Nat × Fault) α}
    (ends : (∃ value j, result = .ok value ∧ position parts = some j) ∨
      ∃ n i fault, n < parts ∧ position n = some i ∧ after n i = none ∧
        result = .error (n, fault)) (part : Nat) : (∃ fault, result = .error (part, fault)) ↔
      part < parts ∧ ∃ i, position part = some i ∧ after part i = none := by
  rcases ends with ⟨value, j, rfl, last⟩ | ⟨n, i, fault, bound, here, beyond, rfl⟩
  · constructor
    · rintro ⟨fault, same⟩
      cases same
    · rintro ⟨bound, i, here, beyond⟩
      have behind := first_beyond steps here beyond last
      omega
  · constructor
    · rintro ⟨fault', same⟩
      obtain ⟨rfl, -⟩ := Prod.mk.inj (Except.error.inj same)
      exact ⟨bound, i, here, beyond⟩
    · rintro ⟨_, j, there, beyond'⟩
      have first := first_beyond steps here beyond there
      have second := first_beyond steps there beyond' here
      obtain rfl := Nat.le_antisymm first second
      exact ⟨fault, rfl⟩

end

/-! ## Rows and fields -/

section

variable {buf : Bytes}

def HasLength (buf : Bytes) (part i : Nat) : Prop := part ≠ 6 ∧ ¬ (part = 7 ∧ i = buf.length)

theorem uses_storeValue (w : WordSize) : Uses buf (storeValue buf w) fun _ _ => True where
  uses column row _ i len nul _ _ inside := by
    rw [storeValue]
    split
    · exact ⟨_, rfl, trivial⟩
    · split
      · exact ⟨_, rfl, trivial⟩
      · rw [readAt_of_le inside]
        exact ⟨_, rfl, trivial⟩
      · exact ⟨_, rfl, trivial⟩
  faults column row i len nul fault failed := by
    rw [storeValue] at failed
    split at failed
    · cases failed
    · split at failed
      · cases failed
      · rw [readAt] at failed
        split at failed
        · cases failed
        · exact (Except.error.inj failed).symm
      · cases failed

theorem uses_copyString : Uses buf (copyString buf) fun state i => state.2 ≤ i where
  uses _ state before i size _ kept later inside := by
    rw [copyString, readAt_of_le inside]
    refine ⟨(state.1 ++ [(buf.drop i).take size], state.2 + (size + 1)), ?_, ?_⟩
    · exact if_pos (by omega)
    · simp only
      omega
  faults _ state i size _ fault failed := by
    rw [copyString, readAt] at failed
    split at failed
    · change (if state.2 + size + 1 ≤ buf.length then _ else _ : Except Fault (List Bytes × Nat)) = _
        at failed
      split at failed
      · cases failed
      · exact (Except.error.inj failed).symm
    · exact (Except.error.inj failed).symm

theorem decodeRow_iff (w : WordSize) (columns : List MysqlField) (short : buf.length < 2 ^ 24) :
    Decodes buf columns.length (afterStrings buf 0) (fun _ => afterString buf) (fun _ _ => True)
        (decodeRow w columns buf) ↔
      ∀ column i, column < columns.length → afterStrings buf 0 column = some i → Regular buf i := by
  constructor
  · intro decodes
    refine @regular_of_found _ _ buf _ _ (uses_storeValue w) short columns 0 0 .empty trivial
      (fun n j value bound position coded =>
        decodes.integers n j value bound position trivial coded) fun n j bound position beyond => ?_
    obtain ⟨fault, result⟩ := (decodes.fails n).mpr ⟨bound, j, position, beyond⟩
    refine ⟨fault, ?_, by rw [Nat.zero_add]; exact result⟩
    rintro rfl
    exact decodes.inside n result
  · intro regular
    have ends := @decodeStrings_regular _ _ buf _ _ (uses_storeValue w) short columns 0 0 .empty
      trivial regular
    refine ⟨?_, ?_, ?_⟩
    · intro column outside
      rcases ends with ⟨row, j, -, -, result⟩ | ⟨n, j, fault, -, -, -, notOutside, result⟩
      · rw [decodeRow, result] at outside
        cases outside
      · rw [decodeRow, result] at outside
        exact notOutside (Prod.mk.inj (Except.error.inj outside)).2
    · refine fails_iff (fun _ => rfl) ?_
      rcases ends with ⟨row, j, fits, -, result⟩ | ⟨n, j, fault, bound, fits, beyond, -, result⟩
      · exact .inl ⟨(row, j), j, result, fits⟩
      · exact .inr ⟨n, j, fault, bound, fits, beyond, by rw [Nat.zero_add] at result; exact result⟩
    · intro column i number bound position _ coded
      exact lengthCodedBinary_of_some coded (regular column i bound position _ _ _ coded).1

theorem decodeFixed_inside {i : Nat} (inside : i + 13 ≤ buf.length) :
    ∃ fixed, decodeFixed buf i = .ok fixed := by
  have byte {j : Nat} (bound : j < buf.length) : byteAt buf j = .ok buf[j] := by
    rw [byteAt, List.getElem?_eq_getElem bound]
  rw [decodeFixed, readAt_of_le (by omega), readAt_of_le (by omega), byte (by omega),
    readAt_of_le (by omega), byte (by omega)]
  exact ⟨_, rfl⟩

theorem afterFieldParts_eq {part : Nat} (strings : part ≤ 6) :
    afterFieldParts buf part = afterStrings buf 0 part := by
  induction part with
  | zero => rfl
  | succ part ih =>
    rw [afterFieldParts, ih (by omega), afterStrings]
    congr 1
    funext i
    rw [afterFieldPart, if_neg (by omega), if_neg (by omega)]

theorem afterFieldPart_string {part i : Nat} (hasLength : HasLength buf part i) :
    afterFieldPart buf part i = afterString buf i := by
  rw [afterFieldPart, if_neg hasLength.1, if_neg hasLength.2]

theorem decodeField_eq {strings : List Bytes} {wh i : Nat}
    (decoded : decodeStrings buf (copyString buf) (List.replicate 6 ()) 0 0 ([], 0) =
      .ok ((strings, wh), i)) :
    (buf.length < i + 13 → decodeField buf = .error (6, .lenOverBuffer)) ∧
      (i + 13 = buf.length → ∃ value, decodeField buf = .ok value) ∧
      (i + 13 < buf.length → ∃ col : MysqlField, decodeField buf =
        match decodeStrings buf (copyString buf) [()] 7 (i + 13) ([], wh) with
        | .error fault => .error fault
        | .ok ((strings, wh), _) => .ok ({ col with defaultValue := strings.head? }, wh)) := by
  rw [decodeField, decoded]
  simp only
  refine ⟨fun short => by rw [if_pos short], fun last => ?_, fun more => ?_⟩
  · obtain ⟨⟨charsetnr, length, type, flags, decimals⟩, reads⟩ :=
      @decodeFixed_inside buf i (by omega)
    rw [if_neg (by omega), reads]
    simp only [if_pos last.symm]
    exact ⟨_, rfl⟩
  · obtain ⟨⟨charsetnr, length, type, flags, decimals⟩, reads⟩ :=
      @decodeFixed_inside buf i (by omega)
    rw [if_neg (by omega), reads]
    simp only [if_neg (Nat.ne_of_gt more)]
    exact ⟨⟨strings.getD 0 [], strings.getD 1 [], strings.getD 2 [], strings.getD 3 [],
      strings.getD 4 [], strings.getD 5 [], charsetnr, length, type, flags, decimals, none⟩, rfl⟩

theorem afterFieldParts_seven {i : Nat} (there : afterFieldParts buf 7 = some i) :
    ∃ j, afterStrings buf 0 6 = some j ∧ i = j + 13 ∧ j + 13 ≤ buf.length := by
  rw [afterFieldParts, afterFieldParts_eq (Nat.le_refl 6)] at there
  obtain ⟨j, strings, fixed⟩ := Option.bind_eq_some_iff.mp there
  rw [afterFieldPart, if_pos rfl] at fixed
  split at fixed
  case isTrue inside => exact ⟨j, strings, (Option.some.inj fixed).symm, inside⟩
  case isFalse => cases fixed

theorem afterFieldParts_seven_of {j : Nat} (strings : afterStrings buf 0 6 = some j)
    (inside : j + 13 ≤ buf.length) : afterFieldParts buf 7 = some (j + 13) := by
  rw [afterFieldParts, afterFieldParts_eq (Nat.le_refl 6), strings, bind_some,
    afterFieldPart, if_pos rfl, if_pos inside]

theorem strings_regular (short : buf.length < 2 ^ 24)
    (decodes : Decodes buf 8 (afterFieldParts buf) (afterFieldPart buf) (HasLength buf)
      (decodeField buf)) :
    ∀ part i, part < 6 → afterStrings buf 0 part = some i → Regular buf i := by
  have hasLength {part i : Nat} (bound : part < 6) : HasLength buf part i :=
    ⟨by omega, by omega⟩
  refine @regular_of_found _ _ buf _ _ uses_copyString short (List.replicate 6 ()) 0 0 ([], 0)
    (Nat.le_refl 0) (fun part i value bound position coded => ?_)
    fun part i bound position beyond => ?_
  · rw [← afterFieldParts_eq (Nat.le_of_lt bound)] at position
    exact decodes.integers part i value (Nat.lt_trans bound (by decide)) position
      (hasLength bound) coded
  · have bound : part < 6 := bound
    obtain ⟨fault, result⟩ := (decodes.fails part).mpr ⟨by omega, i,
      (afterFieldParts_eq (by omega)).trans position,
      (afterFieldPart_string (hasLength bound)).trans beyond⟩
    refine ⟨fault, fun outside => decodes.inside part (outside ▸ result), ?_⟩
    rw [Nat.zero_add]
    cases decoded : decodeStrings buf (copyString buf) (List.replicate 6 ()) 0 0 ([], 0) with
    | error found =>
      rw [decodeField, decoded] at result
      exact congrArg Except.error (Except.error.inj result)
    | ok value =>
      obtain ⟨⟨strings, wh⟩, j⟩ := value
      obtain ⟨tooShort, last, more⟩ := decodeField_eq decoded
      rcases Nat.lt_trichotomy (j + 13) buf.length with longer | same | shorter
      · obtain ⟨col, isField⟩ := more longer
        rw [isField] at result
        cases default : decodeStrings buf (copyString buf) [()] 7 (j + 13) ([], wh) with
        | error found =>
          rw [default] at result
          obtain ⟨number, fault'⟩ := found
          have later := (decodeStrings_number default).1
          have same := (Prod.mk.inj (Except.error.inj result)).1
          omega
        | ok value => rw [default] at result; cases result
      · obtain ⟨value, isField⟩ := last same
        rw [isField] at result
        cases result
      · rw [tooShort shorter] at result
        have same := (Prod.mk.inj (Except.error.inj result)).1
        omega

theorem decodeField_regular (short : buf.length < 2 ^ 24)
    (regular : ∀ part i, part < 8 → afterFieldParts buf part = some i → HasLength buf part i →
      Regular buf i) : (∃ value j, decodeField buf = .ok value ∧ afterFieldParts buf 8 = some j) ∨
    ∃ n i fault, n < 8 ∧ afterFieldParts buf n = some i ∧ afterFieldPart buf n i = none ∧
      fault ≠ .outside ∧ decodeField buf = .error (n, fault) := by
  rcases @decodeStrings_regular _ _ buf _ _ uses_copyString short (List.replicate 6 ()) 0 0
    ([], 0) (Nat.le_refl 0) (fun n k bound there => by
      have bound : n < 6 := bound
      exact regular n k (by omega) ((afterFieldParts_eq (by omega)).trans there)
        ⟨by omega, by omega⟩) with
    ⟨⟨strings, wh⟩, j, fits, kept, decoded⟩ | ⟨n, j, fault, bound, fits, beyond, notOutside, result⟩
  · obtain ⟨tooShort, last, more⟩ := decodeField_eq decoded
    rcases Nat.lt_trichotomy (j + 13) buf.length with longer | same | shorter
    · have there := afterFieldParts_seven_of fits (Nat.le_of_lt longer)
      have hasLength : HasLength buf 7 (j + 13) := ⟨by decide, by omega⟩
      have isRegular := regular 7 (j + 13) (by decide) there hasLength
      have kept : (([] : List Bytes), wh).2 ≤ j + 13 := Nat.le_trans kept (Nat.le_add_right j 13)
      obtain ⟨col, isField⟩ := more longer
      cases ends : afterString buf (j + 13) with
      | none =>
        obtain ⟨fault, notOutside, result⟩ := @decodeStrings_beyond _ _ buf (copyString buf) _ ends
          isRegular () [] 7 ([], wh)
        refine .inr ⟨7, j + 13, fault, by decide, there,
          (afterFieldPart_string hasLength).trans ends, notOutside, ?_⟩
        rw [isField, result]
      | some k =>
        obtain ⟨⟨default, wh'⟩, -, result⟩ := decodeStrings_fits uses_copyString short kept ends
          isRegular () [] 7
        refine .inl ⟨({ col with defaultValue := default.head? }, wh'), k, ?_, ?_⟩
        · rw [isField, result, decodeStrings]
        · rw [afterFieldParts, there, bind_some, afterFieldPart_string hasLength, ends]
    · obtain ⟨value, isField⟩ := last same
      refine .inl ⟨value, j + 13, isField, ?_⟩
      rw [afterFieldParts, afterFieldParts_seven_of fits (Nat.le_of_eq same), bind_some,
        afterFieldPart, if_neg (by decide), if_pos ⟨rfl, same⟩]
    · refine .inr ⟨6, j, .lenOverBuffer, by decide, (afterFieldParts_eq (Nat.le_refl 6)).trans fits,
        ?_, nofun, tooShort shorter⟩
      rw [afterFieldPart, if_pos rfl, if_neg (Nat.not_le.mpr shorter)]
  · have bound : n < 6 := bound
    rw [Nat.zero_add] at result
    refine .inr ⟨n, j, fault, by omega, (afterFieldParts_eq (by omega)).trans fits, ?_, notOutside,
      ?_⟩
    · exact (afterFieldPart_string ⟨by omega, by omega⟩).trans beyond
    · rw [decodeField, result]

theorem decodeField_iff (short : buf.length < 2 ^ 24) :
    Decodes buf 8 (afterFieldParts buf) (afterFieldPart buf) (HasLength buf) (decodeField buf) ↔
      ∀ part i, part < 8 → afterFieldParts buf part = some i → HasLength buf part i →
        Regular buf i := by
  constructor
  · intro decodes part i bound position hasLength
    have strings := strings_regular short decodes
    rcases Nat.lt_or_ge part 6 with isString | later
    · exact strings part i isString ((afterFieldParts_eq (by omega)).symm.trans position)
    obtain rfl : part = 7 := by
      have notFixed := hasLength.1
      omega
    obtain ⟨j, before, rfl, inside⟩ := afterFieldParts_seven position
    have more : j + 13 < buf.length := by
      have notEnd := hasLength.2
      omega
    rcases @decodeStrings_regular _ _ buf _ _ uses_copyString short (List.replicate 6 ()) 0 0
      ([], 0) (Nat.le_refl 0) strings with
      ⟨⟨values, wh⟩, j', fits, kept, decoded⟩ | ⟨n, j', _, bound, fits, beyond, -⟩
    · obtain rfl := Option.some.inj (before.symm.trans fits)
      obtain ⟨col, isField⟩ := (decodeField_eq decoded).2.2 more
      have kept : wh ≤ j + 13 := Nat.le_trans kept (Nat.le_add_right j 13)
      refine @regular_of_found _ _ buf _ _ uses_copyString short [()] 7 (j + 13) ([], wh) kept
        ?_ ?_ 0 (j + 13) Nat.zero_lt_one rfl
      · intro n k value bound' there coded
        obtain rfl : n = 0 := by simpa using bound'
        cases there
        exact decodes.integers 7 _ value (by decide) position hasLength coded
      · intro n k bound' there beyond
        obtain rfl : n = 0 := by simpa using bound'
        cases there
        obtain ⟨fault, result⟩ := (decodes.fails 7).mpr ⟨by decide, _, position,
          (afterFieldPart_string hasLength).trans beyond⟩
        refine ⟨fault, fun outside => decodes.inside 7 (outside ▸ result), ?_⟩
        rw [isField] at result
        cases default : decodeStrings buf (copyString buf) [()] 7 (j + 13) ([], wh) with
        | error found =>
          rw [default] at result
          exact congrArg Except.error (Except.error.inj result)
        | ok value => rw [default] at result; cases result
    · have behind := @first_beyond (afterStrings buf 0) (fun _ => afterString buf) (fun _ => rfl)
        n 6 j' j fits beyond before
      have bound : n < 6 := bound
      omega
  · intro regular
    have ends := decodeField_regular short regular
    refine ⟨?_, ?_, ?_⟩
    · intro part outside
      rcases ends with ⟨value, j, result, -⟩ | ⟨n, i, fault, -, -, -, notOutside, result⟩
      · rw [result] at outside
        cases outside
      · rw [result] at outside
        exact notOutside (Prod.mk.inj (Except.error.inj outside)).2
    · refine fails_iff (fun _ => rfl) ?_
      rcases ends with ⟨value, j, result, last⟩ | ⟨n, i, fault, bound, fits, beyond, -, result⟩
      · exact .inl ⟨value, j, result, last⟩
      · exact .inr ⟨n, i, fault, bound, fits, beyond, result⟩
    · intro part i number bound position hasLength coded
      exact lengthCodedBinary_of_some coded
        (regular part i bound position hasLength _ _ _ coded).1

/-- **Both functions decode a packet right exactly if each length coded integer they come to is
regular.** -/
theorem decodes_iff_regular (w : WordSize) (columns : List MysqlField) (buf : Bytes)
    (short : buf.length < 2 ^ 24) :
    (Decodes buf 8 (afterFieldParts buf) (afterFieldPart buf) (HasLength buf) (decodeField buf) ↔
      ∀ part i, part < 8 → afterFieldParts buf part = some i → HasLength buf part i →
        Regular buf i) ∧
    (Decodes buf columns.length (afterStrings buf 0) (fun _ => afterString buf) (fun _ _ => True)
        (decodeRow w columns buf) ↔
      ∀ column i, column < columns.length → afterStrings buf 0 column = some i → Regular buf i) :=
  ⟨decodeField_iff short, decodeRow_iff w columns short⟩

end

/-! ## A length that wraps around -/

/-- A field that begins with the length 2^64 - 9. -/
def wrapping : Bytes := 254 :: 247 :: List.replicate 7 255

def oneByte : Bytes := [1, 65]

/-- The cursor is at 9, where the sum is zero: all of the length is copied. -/
theorem not_decodes_wrapping :
    ¬ Decodes wrapping 8 (afterFieldParts wrapping) (afterFieldPart wrapping)
      (HasLength wrapping) (decodeField wrapping) := by
  intro decodes
  refine decodes.inside 0 ?_
  decide

theorem decodes_iff_regular_oneByte :
    Decodes oneByte 1 (afterStrings oneByte 0) (fun _ => afterString oneByte) (fun _ _ => True)
      (decodeRow .eight [MysqlField.zero] oneByte) := by
  refine (decodes_iff_regular .eight [MysqlField.zero] oneByte (by decide)).2.mpr ?_
  intro column i bound position size nul count coded
  obtain rfl : column = 0 := by simpa using bound
  cases position
  have value : lengthCoded (oneByte.drop 0) = some (1, false, 1) := by decide
  obtain ⟨rfl, -, rfl⟩ : size = 1 ∧ nul = false ∧ count = 1 := by
    simpa [eq_comm] using value.symm.trans coded
  exact ⟨by decide, by decide⟩

end PhpExts.Swoole.Mysql
