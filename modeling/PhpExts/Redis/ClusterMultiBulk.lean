import PhpExts.Redis.ReplyReader
import Mathlib.Data.List.TakeWhile

/-!
# The multi-bulk handlers of a cluster

A multi-bulk reply is read element by element. An element that is nil or an error is read as `NULL`,
and the handlers differ in what they make of it: they stop, put `false` in its place, or go on to
the next. Where one stops early, or where pairs are asked for and their number is odd, the rest of the
reply is left for the next command; where it is skipped, the pairs are shifted (`inStep_iff`).
-/

namespace PhpExts.Redis.ClusterMultiBulk

open PhpExts.Redis.ReplyReader (Bytes Got Numeral Text redisSockGets redisSockReadBulkReply
  redisSockGets_line redisSockReadBulkReply_body not_lineFeed asInt_eq)
open PhpExts.Swoole.LengthProtocol (asInt)
open PhpExts.Swoole.RedisProtocol (strtol crlf Denotes strtol_digits)

/-- `redis_sock_read`, with `failed` for `NULL`. The value of `atoi` is an `int`. -/
def redisSockRead (input : Bytes) : Got Bytes :=
  match redisSockGets 4095 input with
  | .fault => .fault
  | .failed rest => .failed rest
  | .ok inbuf rest =>
    let type := inbuf.head?
    if type = some 45 then .failed rest
    else if type = some 36 then
      let bufLen := (strtol inbuf.tail).1
      if asInt bufLen ≠ bufLen then .fault else redisSockReadBulkReply bufLen rest
    else if type = some 42 ∧ inbuf.tail.take 2 = [45, 49] then .failed rest
    else if (type = some 42 ∨ type = some 43 ∨ type = some 58) ∧ 1 < inbuf.length then
      .ok inbuf rest
    -- a protocol error
    else .failed rest

/-- What a handler comes to: whether it succeeds, what it has made of the elements, and what is left
of the stream. -/
inductive Handled (σ : Type) where
  | fault
  | done (success : Bool) (value : σ) (rest : Bytes)

/-- The loop of the handlers over the elements; on `NULL` it goes on or fails. -/
def respLoop {σ : Type} (onLine : σ → Bytes → σ) (onNull : σ → Option σ) :
    Nat → σ → Bytes → Handled σ
  | 0, value, input => .done true value input
  | count + 1, value, input =>
    match redisSockRead input with
    | .fault => .fault
    | .ok line rest => respLoop onLine onNull count (onLine value line) rest
    | .failed rest =>
      match onNull value with
      | some value => respLoop onLine onNull count value rest
      | none => .done false value rest

def mbulkRespLoopRaw (count : Nat) (input : Bytes) : Handled (List Bytes) :=
  respLoop (fun result line => result ++ [line]) (fun _ => none) count [] input

inductive Value (ζ : Type) where
  | false
  | string (bytes : Bytes)
  | unpacked (z : ζ)

structure Zip (ν : Type) where
  idx : Nat
  key : Bytes
  added : List (Bytes × ν)

def zipLine {ν : Type} (entry : Bytes → Bytes → Bytes × ν) (zip : Zip ν) (line : Bytes) : Zip ν :=
  if zip.idx % 2 = 0 then ⟨zip.idx + 1, line, zip.added⟩
  else ⟨zip.idx + 1, zip.key, zip.added ++ [entry zip.key line]⟩

section

variable {ζ δ : Type} (unpack : Bytes → Option ζ) (getString : ζ → Bytes) (atof : Bytes → δ)

/-- The value of a line, by `redis_unpack`. -/
def valueOf (line : Bytes) : Value ζ :=
  match unpack line with
  | some z => .unpacked z
  | none => .string line

def mbulkRespLoop (count : Nat) (input : Bytes) : Handled (List (Value ζ)) :=
  respLoop (fun result line => result ++ [valueOf unpack line])
    (fun result => some (result ++ [.false])) count [] input

/-- A pair with a text; `add_assoc_zval` takes a key up to its first zero. -/
def strEntry (key line : Bytes) : Bytes × Value ζ :=
  match unpack line with
  | some z => (key.takeWhile (· != 0), .unpacked z)
  | none => (key, .string line)

def mbulkRespLoopZipstr (count : Nat) (input : Bytes) : Handled (Zip (Value ζ)) :=
  if count % 2 ≠ 0 then .done false ⟨0, [], []⟩ input
  else respLoop (zipLine (strEntry unpack)) (fun _ => none) count ⟨0, [], []⟩ input

def memberOf (key : Bytes) : Bytes :=
  match unpack key with
  | some z => getString z
  | none => key

def mbulkRespLoopZipdbl (count : Nat) (input : Bytes) : Handled (Zip δ) :=
  if count % 2 ≠ 0 then .done false ⟨0, [], []⟩ input
  else respLoop (zipLine fun key line => (memberOf unpack getString key, atof line)) some count
    ⟨0, [], []⟩ input

end

inductive Element where
  | bulk (digits body : Bytes) (denotes : Denotes digits body.length)
  | null
  | integer (numeral : Numeral)
  | status (text : Text)
  | error (text : Text)

namespace Element

def line : Element → Bytes
  | bulk digits _ _ => 36 :: digits
  | null => [36, 45, 49]
  | integer numeral => 58 :: numeral.bytes
  | status text => 43 :: text.bytes
  | error text => 45 :: text.bytes

def behind : Element → Bytes
  | bulk _ body _ => body ++ crlf
  | null | integer _ | status _ | error _ => []

def bytes (element : Element) : Bytes := element.line ++ crlf ++ element.behind

/-- What an element is read as: a line has its type; an empty status is a protocol error. -/
def text : Element → Option Bytes
  | bulk _ body _ => some body
  | null | error _ => none
  | integer numeral => some (58 :: numeral.bytes)
  | status text => if text.bytes = [] then none else some (43 :: text.bytes)

/-- The line has room in the buffer, and the length with the line end in an `int`. -/
def Fits (element : Element) : Prop :=
  element.line.length + 3 ≤ 4095 ∧ element.behind.length < 2 ^ 31

end Element

def bytesOf (elements : List Element) : Bytes := elements.flatMap Element.bytes

def pairs : List Bytes → List (Bytes × Bytes)
  | key :: value :: lines => (key, value) :: pairs lines
  | _ => []

/-! ## The properties -/

def InStep {σ : Type} (handled : Handled σ) (rest : Bytes) : Prop :=
  ∃ success value, handled = .done success value rest

def Paired {ν : Type} (entry : Bytes → Bytes → Bytes × ν) (elements : List Element)
    (handled : Handled (Zip ν)) : Prop :=
  ∀ zip rest, handled = .done true zip rest → ∃ lines, elements.map Element.text = lines.map some ∧
    zip.added = (pairs lines).map fun pair => entry pair.1 pair.2

section

variable {ζ δ : Type} (unpack : Bytes → Option ζ) (getString : ζ → Bytes) (atof : Bytes → δ)
  (elements : List Element) (rest : Bytes)

/-- What is asked of `mbulk_resp_loop_raw`. -/
def RawRight : Prop :=
  InStep (mbulkRespLoopRaw elements.length (bytesOf elements ++ rest)) rest

/-- What is asked of `mbulk_resp_loop`. -/
def LoopRight : Prop :=
  InStep (mbulkRespLoop unpack elements.length (bytesOf elements ++ rest)) rest

/-- What is asked of `mbulk_resp_loop_zipstr`. -/
def ZipstrRight : Prop :=
  InStep (mbulkRespLoopZipstr unpack elements.length (bytesOf elements ++ rest)) rest ∧
    Paired (fun key line => (key, valueOf unpack line)) elements
      (mbulkRespLoopZipstr unpack elements.length (bytesOf elements ++ rest))

/-- What is asked of `mbulk_resp_loop_zipdbl`. -/
def ZipdblRight : Prop :=
  InStep (mbulkRespLoopZipdbl unpack getString atof elements.length (bytesOf elements ++ rest))
      rest ∧
    Paired (fun key line => (memberOf unpack getString key, atof line)) elements
      (mbulkRespLoopZipdbl unpack getString atof elements.length (bytesOf elements ++ rest))

/-- No element but the last is read as `NULL`. -/
def FrontRead : Prop := ∀ element ∈ elements.dropLast, element.text.isSome

def AllRead : Prop := ∀ element ∈ elements, element.text.isSome

def KeysWhole : Prop :=
  ∀ pair ∈ pairs (elements.filterMap Element.text), (unpack pair.2).isSome → 0 ∉ pair.1

end

/-! ## Reading an element -/

section

variable {element : Element} {rest : Bytes}

theorem line_oneLine (element : Element) : ∀ byte ∈ element.line, byte ≠ 10 := by
  intro byte mem
  cases element with
  | bulk digits body denotes =>
    rcases List.mem_cons.mp mem with rfl | isDigit
    · decide
    · exact not_lineFeed (denotes.each byte isDigit)
  | null =>
    simp only [Element.line, List.mem_cons, List.not_mem_nil, or_false] at mem
    rcases mem with rfl | rfl | rfl <;> decide
  | integer numeral =>
    rcases List.mem_cons.mp mem with rfl | isDigit
    · decide
    · exact numeral.oneLine byte isDigit
  | status text =>
    rcases List.mem_cons.mp mem with rfl | inText
    · decide
    · exact (text.oneLine byte inText).1
  | error text =>
    rcases List.mem_cons.mp mem with rfl | inText
    · decide
    · exact (text.oneLine byte inText).1

/-- **An element is read, and no more than that.** -/
theorem redisSockRead_element (fits : element.Fits) (rest : Bytes) :
    redisSockRead (element.bytes ++ rest) = match element.text with
      | some line => .ok line rest
      | none => .failed rest := by
  have gets : ∀ behind, redisSockGets 4095 (element.line ++ crlf ++ behind) =
      .ok element.line behind := fun behind =>
    redisSockGets_line (line_oneLine element) fits.1
  rw [redisSockRead, Element.bytes, List.append_assoc, gets]
  cases element with
  | bulk digits body denotes =>
    have room : body.length + 2 < 2 ^ 31 := by
      have behind := fits.2
      rwa [Element.behind, List.length_append] at behind
    have count : (strtol digits).1 = body.length := by
      have read : strtol (digits ++ []) = ((body.length : Int), digits.length) :=
        strtol_digits denotes (by omega) rfl
      rw [List.append_nil] at read
      rw [read]
    have isInt : asInt (body.length : Int) = body.length := asInt_eq (by omega) (by omega)
    simp only [Element.line, List.head?_cons, List.tail_cons, count, isInt]
    rw [if_neg (by decide), if_pos trivial, if_neg (by simp)]
    exact redisSockReadBulkReply_body room
  | null => rfl
  | integer numeral =>
    have some_ : 1 < (58 :: numeral.bytes).length := by
      have := List.length_pos_iff.mpr numeral.denotes.nonempty
      simp only [Numeral.bytes, List.length_cons, List.length_append]
      omega
    simp only [Element.line, List.head?_cons]
    rw [if_neg (by decide), if_neg (by decide), if_neg (by simp), if_pos ⟨by simp, some_⟩]
    rfl
  | status text =>
    simp only [Element.line, List.head?_cons, Element.text]
    rw [if_neg (by decide), if_neg (by decide), if_neg (by simp)]
    by_cases empty : text.bytes = []
    · rw [if_pos empty, empty, if_neg (by simp)]
      rfl
    · have some_ : 1 < (43 :: text.bytes).length := by
        have := List.length_pos_iff.mpr empty
        rw [List.length_cons]
        omega
      rw [if_neg empty, if_pos ⟨by simp, some_⟩]
      rfl
  | error text => rfl

end

section

variable {σ : Type} {onLine : σ → Bytes → σ} {onNull : σ → Option σ} {elements : List Element}
  {rest : Bytes}

theorem bytesOf_append_eq_iff : bytesOf elements ++ rest = rest ↔ elements = [] := by
  constructor
  · intro same
    cases elements with
    | nil => rfl
    | cons element elements =>
      have length := congrArg List.length same
      simp only [bytesOf, List.flatMap_cons, Element.bytes, crlf, List.length_append,
        List.length_cons] at length
      omega
  · rintro rfl
    rfl

theorem respLoop_cons {element : Element} (fits : element.Fits) (value : σ) :
    respLoop onLine onNull (element :: elements).length value
        (bytesOf (element :: elements) ++ rest) = match element.text with
      | some line => respLoop onLine onNull elements.length (onLine value line)
          (bytesOf elements ++ rest)
      | none =>
        match onNull value with
        | some value => respLoop onLine onNull elements.length value (bytesOf elements ++ rest)
        | none => .done false value (bytesOf elements ++ rest) := by
  have front : bytesOf (element :: elements) ++ rest =
      element.bytes ++ (bytesOf elements ++ rest) := by
    rw [bytesOf, List.flatMap_cons, List.append_assoc]
    rfl
  rw [List.length_cons, respLoop, front, redisSockRead_element fits]
  cases element.text <;> rfl

theorem respLoop_all (fits : ∀ element ∈ elements, element.Fits) {lines : List Bytes}
    (read : elements.map Element.text = lines.map some) (value : σ) :
    respLoop onLine onNull elements.length value (bytesOf elements ++ rest) =
      .done true (lines.foldl onLine value) rest := by
  induction elements generalizing lines value with
  | nil =>
    obtain rfl := List.map_eq_nil_iff.mp read.symm
    rfl
  | cons element elements ih =>
    obtain ⟨fitsHere, fitsThere⟩ := List.forall_mem_cons.mp fits
    cases lines with
    | nil => cases read
    | cons line lines =>
      obtain ⟨here, there⟩ := List.cons.inj read
      rw [respLoop_cons fitsHere, here]
      exact ih fitsThere there _

/-- **A loop that fails on `NULL` is in step where only the last element may be so.** -/
theorem respLoop_stop (stops : ∀ value, onNull value = none)
    (fits : ∀ element ∈ elements, element.Fits) (value : σ) :
    InStep (respLoop onLine onNull elements.length value (bytesOf elements ++ rest)) rest ↔
      FrontRead elements := by
  induction elements generalizing value with
  | nil => exact ⟨fun _ => nofun, fun _ => ⟨true, value, rfl⟩⟩
  | cons element elements ih =>
    obtain ⟨fitsHere, fitsThere⟩ := List.forall_mem_cons.mp fits
    rw [respLoop_cons fitsHere, FrontRead]
    cases here : element.text with
    | some line =>
      dsimp only
      rw [ih fitsThere, FrontRead]
      cases elements with
      | nil => simp
      | cons next elements => simp [List.dropLast_cons_cons, here]
    | none =>
      simp only [stops]
      cases elements with
      | nil => exact ⟨fun _ => nofun, fun _ => ⟨false, value, rfl⟩⟩
      | cons next elements =>
        constructor
        · rintro ⟨success, last, same⟩
          cases bytesOf_append_eq_iff.mp (Handled.done.inj same).2.2
        · intro front
          have := front element (.head _)
          rw [here] at this
          cases this

theorem respLoop_fails (stops : ∀ value, onNull value = none)
    (fits : ∀ element ∈ elements, element.Fits) (missing : ¬ AllRead elements) (value : σ) :
    ∃ last behind, respLoop onLine onNull elements.length value (bytesOf elements ++ rest) =
      .done false last behind := by
  induction elements generalizing value with
  | nil => exact absurd (fun _ mem => nomatch mem) missing
  | cons element elements ih =>
    obtain ⟨fitsHere, fitsThere⟩ := List.forall_mem_cons.mp fits
    rw [respLoop_cons fitsHere]
    cases here : element.text with
    | some line =>
      apply ih fitsThere
      intro others
      apply missing
      exact List.forall_mem_cons.mpr ⟨by rw [here]; rfl, others⟩
    | none =>
      simp only [stops]
      exact ⟨value, _, rfl⟩

/-- **A loop that goes on comes to the end of the reply.** -/
theorem respLoop_total {skip : σ → σ} (fits : ∀ element ∈ elements, element.Fits) (value : σ) :
    respLoop onLine (fun value => some (skip value)) elements.length value
        (bytesOf elements ++ rest) = .done true (elements.foldl (fun value element =>
        match element.text with
        | some line => onLine value line
        | none => skip value) value) rest := by
  induction elements generalizing value with
  | nil => rfl
  | cons element elements ih =>
    obtain ⟨fitsHere, fitsThere⟩ := List.forall_mem_cons.mp fits
    rw [respLoop_cons fitsHere, List.foldl_cons]
    cases element.text <;> exact ih fitsThere _

end

section

variable {ν ζ : Type} {elements : List Element}

theorem foldl_zipLine (entry : Bytes → Bytes → Bytes × ν) (lines : List Bytes) (zip : Zip ν)
    (even : zip.idx % 2 = 0) : (lines.foldl (zipLine entry) zip).added =
      zip.added ++ (pairs lines).map fun pair => entry pair.1 pair.2 := by
  induction lines using pairs.induct generalizing zip with
  | case1 key value lines ih =>
    have odd : ¬ (zip.idx + 1) % 2 = 0 := by omega
    have step : zipLine entry (zipLine entry zip key) value =
        ⟨zip.idx + 1 + 1, key, zip.added ++ [entry key value]⟩ := by
      rw [zipLine, zipLine, if_pos even]
      exact if_neg odd
    rw [List.foldl_cons, List.foldl_cons, step, ih _ (by simp only; omega), pairs, List.map_cons,
      List.append_assoc]
    rfl
  | case2 lines short =>
    match lines, short with
    | [], _ => simp [pairs]
    | [key], _ => simp [pairs, zipLine, even]
    | key :: value :: lines, short => exact absurd rfl (short key value lines)

theorem map_text_of_allRead (read : AllRead elements) :
    elements.map Element.text = (elements.filterMap Element.text).map some := by
  induction elements with
  | nil => rfl
  | cons element elements ih =>
    obtain ⟨here, there⟩ := List.forall_mem_cons.mp read
    obtain ⟨line, isLine⟩ := Option.isSome_iff_exists.mp here
    rw [List.map_cons, List.filterMap_cons, isLine, List.map_cons, ih there]

theorem allRead_of_map_text {lines : List Bytes}
    (read : elements.map Element.text = lines.map some) : AllRead elements := by
  intro element mem
  have isText : element.text ∈ lines.map some := read ▸ List.mem_map.mpr ⟨element, mem, rfl⟩
  obtain ⟨line, -, same⟩ := List.mem_map.mp isText
  rw [← same]
  rfl

theorem strEntry_eq_iff (unpack : Bytes → Option ζ) (key line : Bytes) :
    strEntry unpack key line = (key, valueOf unpack line) ↔ ((unpack line).isSome → 0 ∉ key) := by
  rw [strEntry, valueOf]
  cases unpack line with
  | none => simp
  | some z =>
    dsimp only
    rw [Prod.mk.injEq, and_iff_left rfl, List.takeWhile_eq_self_iff]
    constructor
    · intro whole _ zero
      exact absurd (whole 0 zero) (by decide)
    · intro whole byte mem
      rw [bne_iff_ne]
      rintro rfl
      exact whole rfl mem

end

variable {ζ δ : Type} {elements : List Element}

theorem rawRight_iff (fits : ∀ element ∈ elements, element.Fits) (rest : Bytes) :
    RawRight elements rest ↔ FrontRead elements :=
  respLoop_stop (fun _ => rfl) fits []

theorem loopRight (unpack : Bytes → Option ζ) (fits : ∀ element ∈ elements, element.Fits)
    (rest : Bytes) : LoopRight unpack elements rest :=
  ⟨true, _, respLoop_total fits []⟩

theorem not_inStep_odd {σ : Type} {value : σ} {rest : Bytes} (odd : elements.length % 2 ≠ 0) :
    ¬ InStep (Handled.done false value (bytesOf elements ++ rest)) rest := by
  rintro ⟨success, last, same⟩
  rw [bytesOf_append_eq_iff.mp (Handled.done.inj same).2.2] at odd
  exact odd rfl

theorem zipstrRight_iff (unpack : Bytes → Option ζ) (fits : ∀ element ∈ elements, element.Fits)
    (rest : Bytes) : ZipstrRight unpack elements rest ↔
      elements.length % 2 = 0 ∧ FrontRead elements ∧
        (AllRead elements → KeysWhole unpack elements) := by
  by_cases odd : elements.length % 2 ≠ 0
  · rw [ZipstrRight, mbulkRespLoopZipstr, if_pos odd]
    exact ⟨fun right => absurd right.1 (not_inStep_odd odd), fun right => absurd right.1 odd⟩
  · have even : elements.length % 2 = 0 := not_not.mp odd
    rw [ZipstrRight, mbulkRespLoopZipstr, if_neg odd, respLoop_stop (fun _ => rfl) fits,
      and_iff_right even]
    apply and_congr_right
    intro _
    by_cases all : AllRead elements
    · have read := map_text_of_allRead all
      rw [respLoop_all fits read]
      have added := foldl_zipLine (strEntry unpack) (elements.filterMap Element.text) ⟨0, [], []⟩
        rfl
      rw [List.nil_append] at added
      have same : KeysWhole unpack elements ↔
          ((pairs (elements.filterMap Element.text)).map fun pair =>
              strEntry unpack pair.1 pair.2) =
            (pairs (elements.filterMap Element.text)).map fun pair =>
              (pair.1, valueOf unpack pair.2) := by
        rw [List.map_inj_left]
        apply forall₂_congr
        intro pair _
        exact (strEntry_eq_iff unpack pair.1 pair.2).symm
      rw [same, ← added]
      constructor
      · intro paired _
        obtain ⟨lines, isLines, entries⟩ := paired _ _ rfl
        obtain rfl : elements.filterMap Element.text = lines :=
          List.map_injective_iff.mpr (Option.some_injective _) (read.symm.trans isLines)
        exact entries
      · rintro entries zip behind same
        obtain ⟨-, rfl, -⟩ := Handled.done.inj same
        exact ⟨_, read, entries all⟩
    · obtain ⟨last, behind, fails⟩ := @respLoop_fails _ (zipLine (strEntry unpack))
        (fun _ => none) elements rest (fun _ => rfl) fits all ⟨0, [], []⟩
      rw [fails]
      refine ⟨fun _ every => absurd every all, fun _ zip behind same => ?_⟩
      cases same

theorem zipdblRight_iff (unpack : Bytes → Option ζ) (getString : ζ → Bytes) (atof : Bytes → δ)
    (fits : ∀ element ∈ elements, element.Fits) (rest : Bytes) :
    ZipdblRight unpack getString atof elements rest ↔
      elements.length % 2 = 0 ∧ AllRead elements := by
  by_cases odd : elements.length % 2 ≠ 0
  · rw [ZipdblRight, mbulkRespLoopZipdbl, if_pos odd]
    exact ⟨fun right => absurd right.1 (not_inStep_odd odd), fun right => absurd right.1 odd⟩
  · have even : elements.length % 2 = 0 := not_not.mp odd
    have result := @respLoop_total _
      (zipLine fun key line => (memberOf unpack getString key, atof line)) elements rest id fits
      ⟨0, [], []⟩
    rw [ZipdblRight, mbulkRespLoopZipdbl, if_neg odd, and_iff_right even]
    change InStep (respLoop _ (fun value => some (id value)) _ _ _) _ ∧
      Paired _ _ (respLoop _ (fun value => some (id value)) _ _ _) ↔ _
    rw [result]
    constructor
    · rintro ⟨-, paired⟩
      obtain ⟨lines, isLines, -⟩ := paired _ _ rfl
      exact allRead_of_map_text isLines
    · intro all
      refine ⟨⟨true, _, rfl⟩, fun zip behind same => ?_⟩
      obtain ⟨-, rfl, -⟩ := Handled.done.inj same
      refine ⟨_, map_text_of_allRead all, ?_⟩
      have added := foldl_zipLine (fun key line => (memberOf unpack getString key, atof line))
        (elements.filterMap Element.text) ⟨0, [], []⟩ rfl
      rw [List.nil_append, List.foldl_filterMap] at added
      refine Eq.trans ?_ added
      congr 2
      funext zip element
      cases element.text <;> rfl

/-- **When the handlers keep the stream in step and pair rightly**, for replies whose lines and
lengths have room. -/
theorem inStep_iff (unpack : Bytes → Option ζ) (getString : ζ → Bytes) (atof : Bytes → δ)
    (elements : List Element) (fits : ∀ element ∈ elements, element.Fits) (rest : Bytes) :
    (RawRight elements rest ↔ FrontRead elements) ∧ LoopRight unpack elements rest ∧
      (ZipstrRight unpack elements rest ↔ elements.length % 2 = 0 ∧ FrontRead elements ∧
        (AllRead elements → KeysWhole unpack elements)) ∧
      (ZipdblRight unpack getString atof elements rest ↔
        elements.length % 2 = 0 ∧ AllRead elements) :=
  ⟨rawRight_iff fits rest, loopRight unpack fits rest, zipstrRight_iff unpack fits rest,
    zipdblRight_iff unpack getString atof fits rest⟩

theorem denotes_one : Denotes [49] 1 where
  nonempty := List.cons_ne_nil _ _
  each := fun _ mem => List.mem_singleton.mp mem ▸ rfl
  value := rfl

def keyValue : List Element := [.bulk [49] [107] denotes_one, .bulk [49] [118] denotes_one]

theorem inStep_keyValue : RawRight keyValue [] ∧
    LoopRight (fun _ => (none : Option Unit)) keyValue [] ∧
    ZipstrRight (fun _ => (none : Option Unit)) keyValue [] ∧
      ZipdblRight (fun _ => (none : Option Unit)) (fun _ => []) List.length keyValue [] := by
  have fits : ∀ element ∈ keyValue, element.Fits := by
    intro element member
    simp only [keyValue, List.mem_cons, List.not_mem_nil, or_false] at member
    rcases member with rfl | rfl <;> exact ⟨by decide, by decide⟩
  have all : AllRead keyValue := by
    intro element member
    simp only [keyValue, List.mem_cons, List.not_mem_nil, or_false] at member
    rcases member with rfl | rfl <;> rfl
  have front : FrontRead keyValue := fun element member =>
    all element (List.dropLast_sublist _ |>.mem member)
  obtain ⟨raw, loop, zipstr, zipdbl⟩ :=
    inStep_iff (fun _ => (none : Option Unit)) (fun _ => []) List.length keyValue fits []
  refine ⟨raw.mpr front, loop, zipstr.mpr ⟨rfl, front, fun _ pair _ unpacked => ?_⟩,
    zipdbl.mpr ⟨rfl, all⟩⟩
  cases unpacked

/-- The element behind a nil is left in the stream. -/
theorem not_inStep : ¬ ∀ elements rest, RawRight elements rest ∧
    LoopRight (fun _ => (none : Option Unit)) elements rest ∧
    ZipstrRight (fun _ => (none : Option Unit)) elements rest ∧
      ZipdblRight (fun _ => (none : Option Unit)) (fun _ => []) List.length elements rest := by
  intro all
  obtain ⟨success, value, result⟩ := (all [.null, .null] []).1
  have stopped : mbulkRespLoopRaw 2 (bytesOf [.null, .null] ++ []) =
      .done false [] [36, 45, 49, 13, 10] := rfl
  have same := stopped.symm.trans result
  cases (Handled.done.inj same).2.2

end PhpExts.Redis.ClusterMultiBulk
