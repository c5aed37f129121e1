import Mathlib.Data.List.Forall2
import PhpExts.Swoole.RedisProtocol

/-!
# The text of `CLIENT LIST`

`redis_parse_client_list_response` goes over the text once. It remembers where a field or a value
begins, and the key before the last `=`; at a blank or the end of a line it enters the value under the
key.

A second `=` makes a key of what stands before it, a value without bytes counts as one of digits, and
so does one of more digits than a `long` has. `parsed_iff` says that nothing else goes wrong.
-/

namespace PhpExts.Redis.ClientList

open PhpExts.Swoole.RedisProtocol (isDigit strtol strtol_digits decimal)
open List (append_assoc cons_append lookup_cons)

abbrev Bytes := List UInt8

inductive Zval where
  | long (lval : Int)
  | string (bytes : Bytes)
  deriving DecidableEq

abbrev Table := List (Bytes × Zval)

/-- `zend_symtable_update`: the value of a key that is there is replaced. -/
def Table.update : Table → Bytes → Zval → Table
  | [], key, value => [(key, value)]
  | entry :: table, key, value =>
    if entry.1 = key then (key, value) :: table else entry :: Table.update table key value

def zvalOf (value : Bytes) : Zval :=
  if value.all isDigit then .long (strtol value).1 else .string value

/-- The pointers and arrays of the scan: the bytes from `lpos` to `p`, those from `kpos` if it is set,
the array of the line and the arrays of the lines before. -/
structure Scan where
  lpos : Bytes
  kpos : Option Bytes
  sub : Table
  ret : List Table

/-- The loop of `redis_parse_client_list_response`; `none` is the result `false`. -/
def scan : Bytes → Scan → Option (List Table)
  | [], s => some s.ret
  | byte :: rest, s =>
    if byte = 0 then some s.ret
    else if byte = 10 ∨ byte = 32 then
      match s.kpos with
      | none => none
      | some key =>
        let sub := s.sub.update key (zvalOf s.lpos)
        if byte = 10 then
          scan rest { s with
            lpos := []
            sub := if rest.headD 0 = 0 then sub else []
            ret := s.ret ++ [sub] }
        else scan rest { s with lpos := [], sub }
    else if byte = 61 then scan rest { s with kpos := some s.lpos, lpos := [] }
    else scan rest { s with lpos := s.lpos ++ [byte] }

def redisParseClientListResponse (response : Bytes) : Option (List Table) :=
  scan response ⟨[], none, [], []⟩

structure Field where
  key : Bytes
  value : Bytes

/-- `key=value`. -/
def Field.text (field : Field) : Bytes := field.key ++ 61 :: field.value

/-- A field as the text has it: the key has no `=`, and both have no blank, no end of a line and no
zero. -/
structure Field.Proper (field : Field) : Prop where
  key : ∀ byte ∈ field.key, byte ≠ 61 ∧ byte ≠ 0 ∧ byte ≠ 10 ∧ byte ≠ 32
  value : ∀ byte ∈ field.value, byte ≠ 0 ∧ byte ≠ 10 ∧ byte ≠ 32

def lineText : List Field → Bytes
  | [] => []
  | [field] => field.text ++ [10]
  | field :: fields => field.text ++ 32 :: lineText fields

def text (lines : List (List Field)) : Bytes := lines.flatMap lineText

/-- A value is a number exactly if it has digits only, at least one, and fits into a `long`. -/
def expected (value : Bytes) : Zval :=
  if value ≠ [] ∧ value.all isDigit = true ∧ decimal value < 2 ^ 63 then .long (decimal value)
  else .string value

structure Maps (line : List Field) (table : Table) : Prop where
  value : ∀ field ∈ line, table.lookup field.key = some (expected field.value)
  keys : ∀ entry ∈ table, ∃ field ∈ line, field.key = entry.1

def Parsed (lines : List (List Field)) : Prop :=
  ∃ tables, redisParseClientListResponse (text lines) = some tables ∧
    List.Forall₂ Maps lines tables

/-- A value with bytes, no `=`, and no more digits than a `long` has. -/
structure Plain (value : Bytes) : Prop where
  nonempty : value ≠ []
  uncut : 61 ∉ value
  fits : value.all isDigit = true → decimal value < 2 ^ 63

structure Clear (line : List Field) : Prop where
  plain : ∀ field ∈ line, Plain field.value
  once : ∀ field ∈ line, ∀ field' ∈ line, field.key = field'.key →
    expected field.value = expected field'.value

section

variable {table : Table} {key key' : Bytes} {value : Zval}

theorem lookup_update : (table.update key value).lookup key' =
    if key' = key then some value else table.lookup key' := by
  induction table with
  | nil =>
    rw [Table.update, lookup_cons]
    by_cases same : key' = key
    · rw [if_pos same, same, beq_self_eq_true]
    · rw [if_neg same, beq_false_of_ne same]
  | cons entry table ih =>
    obtain ⟨first, old⟩ := entry
    rw [Table.update]
    by_cases known : first = key
    · rw [if_pos known, lookup_cons, lookup_cons, known]
      by_cases same : key' = key
      · rw [if_pos same, same, beq_self_eq_true]
      · rw [if_neg same, beq_false_of_ne same]
    · rw [if_neg known, lookup_cons, lookup_cons, ih]
      by_cases same : key' = first
      · rw [same, beq_self_eq_true, if_neg known, if_neg known]
      · rw [beq_false_of_ne same]

theorem mem_update {entry : Bytes × Zval} (isEntry : entry ∈ table.update key value) :
    entry = (key, value) ∨ entry ∈ table := by
  induction table with
  | nil =>
    left
    exact List.mem_singleton.mp isEntry
  | cons first table ih =>
    rw [Table.update] at isEntry
    split at isEntry
    · rcases List.mem_cons.mp isEntry with new | old
      · exact .inl new
      · exact .inr (.tail _ old)
    · rcases List.mem_cons.mp isEntry with old | later
      · right
        rw [old]
        exact .head _
      · rcases ih later with new | old
        · exact .inl new
        · exact .inr (.tail _ old)

theorem mem_of_lookup (found : table.lookup key = some value) : (key, value) ∈ table := by
  obtain ⟨front, back, rfl, -⟩ := List.lookup_eq_some_iff.mp found
  exact List.mem_append_right _ (.head _)

end

/-- The key and the value that a field is read as. -/
def reading (key value : Bytes) : Bytes × Bytes :=
  value.foldl (fun read byte => if byte = 61 then (read.2, []) else (read.1, read.2 ++ [byte]))
    (key, [])

theorem reading_spec (key value : Bytes) : 61 ∉ (reading key value).2 ∧
    (61 ∉ value → reading key value = (key, value)) := by
  induction value using List.reverseRecOn with
  | nil => exact ⟨List.not_mem_nil, fun _ => rfl⟩
  | append_singleton front byte ih =>
    obtain ⟨uncut, same⟩ := ih
    rw [reading, List.foldl_append, List.foldl_cons, List.foldl_nil, ← reading]
    by_cases cut : byte = 61
    · rw [if_pos cut]
      exact ⟨List.not_mem_nil, fun none_ => absurd (by simp [cut]) none_⟩
    · rw [if_neg cut]
      constructor
      · intro isThere
        rcases List.mem_append.mp isThere with old | new
        · exact uncut old
        · exact cut (List.mem_singleton.mp new).symm
      · intro none_
        rw [same fun isThere => none_ (List.mem_append_left _ isThere)]

section

variable {rest : Bytes} {s : Scan}

theorem scan_key (key : Bytes) (proper : ∀ byte ∈ key, byte ≠ 61 ∧ byte ≠ 0 ∧ byte ≠ 10 ∧ byte ≠ 32) :
    scan (key ++ 61 :: rest) s = scan rest { s with kpos := some (s.lpos ++ key), lpos := [] } := by
  induction key generalizing s with
  | nil =>
    rw [List.nil_append, List.append_nil, scan, if_neg (by decide), if_neg (by decide),
      if_pos rfl]
  | cons byte key ih =>
    obtain ⟨⟨noCut, noZero, noEnd, noBlank⟩, later⟩ := List.forall_mem_cons.mp proper
    rw [cons_append, scan, if_neg noZero, if_neg (not_or.mpr ⟨noEnd, noBlank⟩), if_neg noCut,
      ih later, append_assoc]
    rfl

theorem scan_value (value : Bytes) (proper : ∀ byte ∈ value, byte ≠ 0 ∧ byte ≠ 10 ∧ byte ≠ 32)
    (read : Bytes × Bytes) :
    scan (value ++ rest) { s with kpos := some read.1, lpos := read.2 } =
      scan rest { s with
        kpos := some (value.foldl (fun read byte =>
          if byte = 61 then (read.2, []) else (read.1, read.2 ++ [byte])) read).1
        lpos := (value.foldl (fun read byte =>
          if byte = 61 then (read.2, []) else (read.1, read.2 ++ [byte])) read).2 } := by
  induction value generalizing read with
  | nil => rfl
  | cons byte value ih =>
    obtain ⟨⟨noZero, noEnd, noBlank⟩, later⟩ := List.forall_mem_cons.mp proper
    rw [cons_append, scan, if_neg noZero, if_neg (not_or.mpr ⟨noEnd, noBlank⟩),
      List.foldl_cons]
    by_cases cut : byte = 61
    · rw [if_pos cut, if_pos cut]
      exact ih later (read.2, [])
    · rw [if_neg cut, if_neg cut]
      exact ih later (read.1, read.2 ++ [byte])

theorem scan_field {field : Field} (proper : field.Proper) (start : s.lpos = []) :
    scan (field.text ++ rest) s = scan rest { s with
      kpos := some (reading field.key field.value).1
      lpos := (reading field.key field.value).2 } := by
  rw [Field.text, append_assoc, cons_append, scan_key field.key proper.key, start,
    List.nil_append]
  exact scan_value field.value proper.value (field.key, [])

def readLine (fields : List Field) (table : Table) : Table :=
  fields.foldl (fun table field =>
    table.update (reading field.key field.value).1 (zvalOf (reading field.key field.value).2)) table

/-- **The induction is on the fields: each is entered, and the last one ends the line.** -/
theorem scan_line {fields : List Field} (some_ : fields ≠ [])
    (proper : ∀ field ∈ fields, field.Proper) (start : s.lpos = []) :
    ∃ kpos, scan (lineText fields ++ rest) s = scan rest
      ⟨[], kpos, if rest.headD 0 = 0 then readLine fields s.sub else [],
        s.ret ++ [readLine fields s.sub]⟩ := by
  induction fields generalizing s with
  | nil => exact absurd rfl some_
  | cons field fields ih =>
    obtain ⟨first, later⟩ := List.forall_mem_cons.mp proper
    cases fields with
    | nil =>
      refine ⟨some (reading field.key field.value).1, ?_⟩
      rw [lineText, append_assoc, scan_field first start, List.singleton_append, scan,
        if_neg (by decide), if_pos (.inl rfl)]
      rfl
    | cons next fields =>
      obtain ⟨kpos, result⟩ := @ih { s with
        kpos := some (reading field.key field.value).1
        lpos := []
        sub := s.sub.update (reading field.key field.value).1
          (zvalOf (reading field.key field.value).2) } (List.cons_ne_nil _ _) later rfl
      refine ⟨kpos, ?_⟩
      rw [lineText, append_assoc, scan_field first start, cons_append, scan,
        if_neg (by decide), if_pos (.inr rfl)]
      · exact result
      · exact List.cons_ne_nil _ _

end

theorem lineText_head {line : List Field} (some_ : line ≠ []) (proper : ∀ field ∈ line, field.Proper)
    (rest : Bytes) : (lineText line ++ rest).headD 0 ≠ 0 := by
  cases line with
  | nil => exact absurd rfl some_
  | cons field fields =>
    have first := (proper field (.head _)).key
    have start : ∃ behind, lineText (field :: fields) ++ rest = field.key ++ 61 :: behind := by
      cases fields with
      | nil => exact ⟨_, by rw [lineText, Field.text, append_assoc, append_assoc]; rfl⟩
      | cons next fields =>
        exact ⟨_, by
          rw [lineText, Field.text, append_assoc, append_assoc]
          · rfl
          · exact List.cons_ne_nil _ _⟩
    obtain ⟨behind, split⟩ := start
    rw [split]
    cases key : field.key with
    | nil => exact (by decide : (61 : UInt8) ≠ 0)
    | cons byte key' =>
      rw [key] at first
      exact (first byte (.head _)).2.1

theorem scan_text {lines : List (List Field)} (some_ : ∀ line ∈ lines, line ≠ [])
    (proper : ∀ line ∈ lines, ∀ field ∈ line, field.Proper) (kpos : Option Bytes)
    (ret : List Table) : scan (text lines) ⟨[], kpos, [], ret⟩ =
      some (ret ++ lines.map fun line => readLine line []) := by
  induction lines generalizing kpos ret with
  | nil => exact congrArg some (List.append_nil ret).symm
  | cons line lines ih =>
    obtain ⟨first, later⟩ := List.forall_mem_cons.mp some_
    obtain ⟨firstProper, laterProper⟩ := List.forall_mem_cons.mp proper
    obtain ⟨kpos', result⟩ :=
      @scan_line (text lines) ⟨[], kpos, [], ret⟩ line first firstProper rfl
    rw [text, List.flatMap_cons, ← text, result, List.map_cons]
    cases lines with
    | nil => rfl
    | cons next lines =>
      have head : (text (next :: lines)).headD 0 ≠ 0 := by
        rw [text, List.flatMap_cons]
        exact lineText_head (later next (.head _))
          (laterProper next (.head _)) _
      rw [if_neg head, ih later laterProper, append_assoc]
      rfl

section

variable {value : Bytes}

theorem zvalOf_plain (plain : Plain value) : zvalOf value = expected value := by
  rw [zvalOf, expected]
  cases digits : value.all isDigit with
  | false => rw [if_neg Bool.false_ne_true, if_neg fun number => Bool.false_ne_true number.2.1]
  | true =>
    have small := plain.fits digits
    have number : strtol (value ++ []) = ((decimal value : Int), value.length) :=
      strtol_digits ⟨plain.nonempty, List.all_eq_true.mp digits, rfl⟩ small rfl
    rw [List.append_nil] at number
    rw [if_pos rfl, if_pos ⟨plain.nonempty, rfl, small⟩, number]

theorem plain_of_expected {read : Bytes} (uncut : 61 ∉ read) (same : expected value = zvalOf read) :
    Plain value := by
  by_cases number : value ≠ [] ∧ value.all isDigit = true ∧ decimal value < 2 ^ 63
  · refine ⟨number.1, fun isThere => ?_, fun _ => number.2.2⟩
    have isDigit_ := List.all_eq_true.mp number.2.1 61 isThere
    exact absurd isDigit_ (by decide)
  · rw [expected, if_neg number, zvalOf] at same
    split at same
    · cases same
    · rename_i noDigits
      obtain rfl := Zval.string.inj same
      refine ⟨?_, uncut, fun digits => absurd digits noDigits⟩
      rintro rfl
      exact noDigits rfl

end

section

variable {line : List Field} {table : Table}

theorem mem_readLine {entry : Bytes × Zval} (isEntry : entry ∈ readLine line table) :
    entry ∈ table ∨ ∃ field ∈ line, entry =
      ((reading field.key field.value).1, zvalOf (reading field.key field.value).2) := by
  induction line generalizing table with
  | nil => exact .inl isEntry
  | cons first line ih =>
    rcases ih isEntry with old | ⟨field, isField, same⟩
    · rcases mem_update old with new | older
      · exact .inr ⟨first, .head _, new⟩
      · exact .inl older
    · exact .inr ⟨field, .tail _ isField, same⟩

theorem lookup_readLine (plain : ∀ field ∈ line, Plain field.value) (key : Bytes) (value : Zval)
    (once : ∀ field ∈ line, field.key = key → expected field.value = value) :
    (readLine line table).lookup key =
      if ∃ field ∈ line, field.key = key then some value else table.lookup key := by
  induction line generalizing table with
  | nil =>
    rw [if_neg fun isField => by obtain ⟨field, isField, -⟩ := isField; cases isField]
    rfl
  | cons first line ih =>
    obtain ⟨firstPlain, laterPlain⟩ := List.forall_mem_cons.mp plain
    obtain ⟨firstOnce, laterOnce⟩ := List.forall_mem_cons.mp once
    have step : readLine (first :: line) table =
        readLine line (table.update first.key (expected first.value)) := by
      rw [readLine, List.foldl_cons, (reading_spec first.key first.value).2 firstPlain.uncut,
        zvalOf_plain firstPlain]
      rfl
    rw [step, ih laterPlain laterOnce, lookup_update]
    by_cases later : ∃ field ∈ line, field.key = key
    · rw [if_pos later, if_pos]
      obtain ⟨field, isField, same⟩ := later
      exact ⟨field, .tail _ isField, same⟩
    · rw [if_neg later]
      by_cases here : first.key = key
      · rw [if_pos here.symm, if_pos ⟨first, .head _, here⟩, firstOnce here]
      · rw [if_neg (Ne.symm here), if_neg]
        rintro ⟨field, isField, same⟩
        rcases List.mem_cons.mp isField with rfl | isLater
        · exact here same
        · exact later ⟨field, isLater, same⟩

theorem maps_iff : Maps line (readLine line []) ↔ Clear line := by
  constructor
  · intro maps
    refine ⟨fun field isField => ?_, fun field isField field' isField' same => ?_⟩
    · rcases mem_readLine (mem_of_lookup (maps.value field isField)) with nothing | ⟨read, -, same⟩
      · cases nothing
      · exact plain_of_expected (reading_spec read.key read.value).1 (Prod.mk.inj same).2
    · have first := maps.value field isField
      have second := maps.value field' isField'
      rw [same, second] at first
      exact (Option.some.inj first).symm
  · intro clear
    constructor
    · intro field isField
      rw [lookup_readLine clear.plain field.key (expected field.value), if_pos]
      · exact ⟨field, isField, rfl⟩
      · intro other isOther same
        exact clear.once other isOther field isField same
    · intro entry isEntry
      rcases mem_readLine isEntry with nothing | ⟨field, isField, rfl⟩
      · cases nothing
      · refine ⟨field, isField, ?_⟩
        rw [(reading_spec field.key field.value).2 (clear.plain field isField).uncut]

end

/-- A text is parsed as it should be exactly if its values are plain, and no key of a line has two. -/
theorem parsed_iff (lines : List (List Field)) (some_ : ∀ line ∈ lines, line ≠ [])
    (proper : ∀ line ∈ lines, ∀ field ∈ line, field.Proper) :
    Parsed lines ↔ ∀ line ∈ lines, Clear line := by
  have result : redisParseClientListResponse (text lines) =
      some (lines.map fun line => readLine line []) := scan_text some_ proper none []
  have each : List.Forall₂ Maps lines (lines.map fun line => readLine line []) ↔
      ∀ line ∈ lines, Clear line := by
    rw [List.forall₂_map_right_iff, List.forall₂_same]
    constructor
    · intro maps line isLine
      exact maps_iff.mp (maps line isLine)
    · intro clear line isLine
      exact maps_iff.mpr (clear line isLine)
  rw [Parsed, result]
  constructor
  · rintro ⟨tables, same, maps⟩
    cases same
    exact each.mp maps
  · intro clear
    exact ⟨_, rfl, each.mpr clear⟩

theorem parsed_id : Parsed [[⟨[105, 100], [55]⟩]] := by
  refine (parsed_iff [[⟨[105, 100], [55]⟩]] (by simp) (fun line isLine field isField => ?_)).mpr
    fun line isLine => ?_
  · obtain rfl := List.mem_singleton.mp isLine
    obtain rfl := List.mem_singleton.mp isField
    exact ⟨by simp, by simp⟩
  · obtain rfl := List.mem_singleton.mp isLine
    constructor
    · intro field isField
      obtain rfl := List.mem_singleton.mp isField
      exact ⟨by simp, by simp, fun _ => by decide⟩
    · intro field isField field' isField' _
      obtain rfl := List.mem_singleton.mp isField
      obtain rfl := List.mem_singleton.mp isField'
      rfl

/-- `name=`, as a client without a name has it, is entered as the number 0. -/
theorem not_parsed : ¬∀ lines, (∀ line ∈ lines, line ≠ []) →
    (∀ line ∈ lines, ∀ field ∈ line, field.Proper) → Parsed lines := by
  intro parsed
  obtain ⟨tables, result, maps⟩ := parsed [[⟨[110, 97, 109, 101], []⟩]] (by simp) (by
    intro line isLine field isField
    obtain rfl := List.mem_singleton.mp isLine
    obtain rfl := List.mem_singleton.mp isField
    exact ⟨by simp, by simp⟩)
  have entered : redisParseClientListResponse (text [[⟨[110, 97, 109, 101], []⟩]]) =
      some [[([110, 97, 109, 101], .long 0)]] := by decide
  rw [entered] at result
  cases result
  obtain ⟨value, -⟩ := (List.forall₂_cons.mp maps).1
  have found := value ⟨[110, 97, 109, 101], []⟩ (.head _)
  exact absurd found (by decide)

end PhpExts.Redis.ClientList
