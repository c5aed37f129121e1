import PhpExts.Swoole.RedisProtocol

/-!
# HTTP requests

`swPort_onRead_http` receives into the buffer of the request and looks, after each receive, for
what it has not found yet: the method and the version, the end of the header, the length of the
body. Where the first receive ends inside the method, bytes are compared that have not been
received; where it ends inside the version, the connection is closed, too.

The first receive alone counts: the method is looked for until it is found, and then not again.
With it in order, a request is handed over once whatever the chunks were (`dispatched_iff`), if
its header has room in the buffer and no other name begins like that of the length.
-/

namespace PhpExts.Swoole.HttpProtocol

open PhpExts.Library.Receiving
open PhpExts.Swoole.LengthProtocol (asInt)
open PhpExts.Swoole.RedisProtocol (isSpace isDigit strtol crlf Denotes)
open List (append_assoc append_nil cons_append exists_cons_of_ne_nil length_append length_cons
  length_map length_nil length_take nil_append take_append take_of_length_le take_succ_cons)

abbrev Bytes := List UInt8

def headerMaxSize : Nat := 8192

/-- `enum swHttpMethod`, as far as `swHttpRequest_get_protocol` knows it. -/
inductive Method where
  | get
  | post
  | put
  | patch
  | delete
  | head
  | options
  deriving DecidableEq

def Method.name : Method → Bytes
  | .get => [71, 69, 84]
  | .post => [80, 79, 83, 84]
  | .put => [80, 85, 84]
  | .patch => [80, 65, 84, 67, 72]
  | .delete => [68, 69, 76, 69, 84, 69]
  | .head => [72, 69, 65, 68]
  | .options => [79, 80, 84, 73, 79, 78, 83]

def methods : List Method := [.get, .post, .put, .patch, .delete, .head, .options]

/-- `enum swHttpVersion`. -/
inductive Version where
  | http10
  | http11
  deriving DecidableEq

def Version.name : Version → Bytes
  | .http10 => [72, 84, 84, 80, 47, 49, 46, 48]
  | .http11 => [72, 84, 84, 80, 47, 49, 46, 49]

/-- `memcmp` with what has been received, up to the first byte that differs; there is no result if
a byte behind it is compared. -/
def memcmp : Bytes → Bytes → Option Bool
  | _, [] => some true
  | [], _ :: _ => none
  | a :: as, b :: bs => if a = b then memcmp as bs else some false

def findMethod (content : Bytes) : List Method → Option (Option Method)
  | [] => some none
  | method :: methods =>
    match memcmp content method.name with
    | none => none
    | some true => some (some method)
    | some false => findMethod content methods

/-- `swHttpRequest`, with the bytes of its `swString`; `overread` is set by a read of a byte that
has not been received. -/
structure Request where
  method : Option Method
  version : Option Version
  excepted : Bool
  urlOffset : Nat
  urlLength : Nat
  headerLength : Nat
  contentLength : Nat
  content : Bytes
  offset : Nat
  size : Nat
  overread : Bool

def Request.zero : Request where
  method := none
  version := none
  excepted := false
  urlOffset := 0
  urlLength := 0
  headerLength := 0
  contentLength := 0
  content := []
  offset := 0
  size := headerMaxSize
  overread := false

/-- `state` in `swHttpRequest_get_protocol`. -/
inductive Scan where
  | method
  | url
  | version

/-- How a function ends: with `SW_OK`, with `SW_ERR`, or with a read too far. -/
inductive Status where
  | ok
  | err
  | overread
  deriving DecidableEq

/-- The loop of `swHttpRequest_get_protocol`, at the position `p`. -/
def scanVersion : Scan → Nat → Bytes → Request → Status × Request
  | _, p, [], request => (.ok, { request with offset := p + 8 })
  | .method, p, byte :: bytes, request =>
    if isSpace byte then scanVersion .method (p + 1) bytes request
    else scanVersion .url (p + 1) bytes { request with urlOffset := p }
  | .url, p, byte :: bytes, request =>
    if isSpace byte then
      scanVersion .version (p + 1) bytes { request with urlLength := p - request.urlOffset }
    else scanVersion .url (p + 1) bytes request
  | .version, p, byte :: bytes, request =>
    if isSpace byte then scanVersion .version (p + 1) bytes request
    else
      match memcmp (byte :: bytes) (Version.name .http11) with
      | none => (.overread, request)
      | some true => (.ok, { request with version := some .http11, offset := p + 8 })
      | some false =>
        match memcmp (byte :: bytes) (Version.name .http10) with
        | none => (.overread, request)
        | some true => (.ok, { request with version := some .http10, offset := p + 8 })
        | some false => (.err, { request with excepted := true })

def getProtocol (request : Request) : Status × Request :=
  match findMethod request.content methods with
  | none => (.overread, request)
  | some none => (.err, request)
  | some (some method) =>
    scanVersion .method (method.name.length + 1) (request.content.drop (method.name.length + 1))
      { request with method := some method }

/-- The loop of `swHttpRequest_get_header_length`, at the position `p`. -/
def findHeaderEnd : Nat → Bytes → Option Nat
  | _, [] => none
  | p, byte :: bytes =>
    if crlf ++ crlf <+: byte :: bytes then some (p + 4) else findHeaderEnd (p + 1) bytes

def getHeaderLength (request : Request) : Option Nat :=
  findHeaderEnd request.offset (request.content.drop request.offset)

def toLower (byte : UInt8) : UInt8 := if 65 ≤ byte ∧ byte ≤ 90 then byte + 32 else byte

/-- `content-length`. -/
def lengthName : Bytes := [99, 111, 110, 116, 101, 110, 116, 45, 108, 101, 110, 103, 116, 104]

/-- `strstr` for a line end; the string goes up to a zero, which may not have been received. -/
def strstrCrlf : Bytes → Option Bool
  | [] => none
  | byte :: bytes =>
    if byte = 0 then some false
    else if crlf <+: byte :: bytes then some true
    else strstrCrlf bytes

/-- What `atoi` leaves unread; it reads one byte of it. -/
def atoiRest (bytes : Bytes) : Bytes :=
  let text := bytes.dropWhile isSpace
  let sign := if text.head? = some 43 ∨ text.head? = some 45 then 1 else 0
  (text.drop sign).dropWhile isDigit

/-- `uint32_t` of `atoi`. -/
def atoi (bytes : Bytes) : Nat := (asInt (strtol bytes).1 % 2 ^ 32).toNat

def skipSpace : Bytes → Bytes
  | [] => []
  | byte :: bytes => if byte = 32 then bytes else byte :: bytes

def lengthValue (bytes : Bytes) : Status × Nat :=
  if bytes = [] then (.overread, 0)
  else
    match strstrCrlf (skipSpace bytes) with
    | none => (.overread, 0)
    | some false => (.err, 0)
    | some true =>
      if atoiRest (skipSpace bytes) = [] then (.overread, 0)
      else (.ok, atoi (skipSpace bytes))

/-- The loop of `swHttpRequest_get_content_length`. -/
def findLength : Bytes → Status × Nat
  | [] => (.err, 0)
  | byte :: bytes =>
    if (byte :: bytes).length > 15 ∧
        ((byte :: bytes).take 16).map toLower = crlf ++ lengthName then
      lengthValue ((byte :: bytes).drop 17)
    else findLength bytes

def getContentLength (request : Request) : Status × Nat :=
  findLength (request.content.drop request.offset)

/-- What the function is given: `package_max_length`, and whether a request is answered with a
file. -/
structure Setting where
  packageMaxLength : Nat
  isUint : packageMaxLength < 2 ^ 32
  atLeast : 65536 ≤ packageMaxLength
  staticHandler : Request → Bool

structure Dispatch where
  bytes : Bytes
  byStatic : Bool
  deriving DecidableEq

section

variable (setting : Setting) (request : Request)

def closeFd : Receipt Request Dispatch := ⟨request, [], .error⟩

def tooFar : Receipt Request Dispatch := ⟨{ request with overread := true }, [], .error⟩

/-- The part of `swPort_onRead_http` from the total length on. -/
def receiveTotal : Receipt Request Dispatch :=
  let requestSize := (request.headerLength + request.contentLength) % 2 ^ 32
  let content := request.content.take requestSize
  if content.length = requestSize then ⟨.zero, [⟨content, false⟩], .ok⟩
  else ⟨{ request with content := content, size := max request.size requestSize }, [], .again⟩

def receiveBody : Receipt Request Dispatch :=
  if request.contentLength = 0 then
    match getContentLength request with
    | (.overread, _) => tooFar request
    | (.err, _) =>
      if request.content.drop (request.content.length - 4) = crlf ++ crlf then
        ⟨.zero, [⟨request.content, setting.staticHandler request⟩], .ok⟩
      else if request.size = request.content.length then closeFd request
      else ⟨request, [], .again⟩
    | (.ok, length) =>
      if length > setting.packageMaxLength - headerMaxSize then
        closeFd { request with contentLength := length }
      else receiveTotal { request with contentLength := length }
  else receiveTotal request

def receiveHeader : Receipt Request Dispatch :=
  if request.headerLength = 0 then
    match getHeaderLength request with
    | none =>
      if request.size = request.content.length then closeFd request
      else ⟨request, [], .again⟩
    | some length => receiveBody setting { request with headerLength := length }
  else receiveBody setting request

end

/-- `swPort_onRead_http` for one receive, from `recv_data` on. -/
def onReadHttp (setting : Setting) (request : Request) (chunk : Bytes) : Receipt Request Dispatch :=
  let filled := { request with content := request.content ++ chunk }
  if filled.method = none then
    match getProtocol filled with
    | (.overread, filled) => tooFar filled
    | (.err, filled) =>
      if ¬ filled.excepted ∧ filled.content.length < headerMaxSize then ⟨filled, [], .ok⟩
      else closeFd filled
    | (.ok, filled) => receiveHeader setting filled
  else receiveHeader setting filled

structure Header where
  name : Bytes
  value : Bytes
  isName : name ≠ [] ∧ ∀ byte ∈ name, 33 ≤ byte ∧ byte ≤ 126 ∧ byte ≠ 58
  isValue : ∀ byte ∈ value, (byte = 9 ∨ 32 ≤ byte) ∧ byte ≠ 127

def Header.line (header : Header) : Bytes := header.name ++ 58 :: header.value

def Header.bytes (header : Header) : Bytes := header.line ++ crlf

def Header.IsLength (header : Header) : Prop := header.name.map toLower = lengthName

def Header.LooksLikeLength (header : Header) : Prop := lengthName <+: header.name.map toLower

instance (header : Header) : Decidable header.LooksLikeLength :=
  inferInstanceAs (Decidable (_ <+: _))

instance (header : Header) : Decidable header.IsLength := inferInstanceAs (Decidable (_ = _))

def Header.declared (header : Header) : Nat := atoi (skipSpace (header.bytes.drop 15))

def Gives (value : Bytes) (number : Nat) : Prop :=
  ∃ before digits after, value = before ++ digits ++ after ∧ Denotes digits number ∧
    ∀ byte ∈ before ++ after, byte = 32 ∨ byte = 9

structure HttpRequest where
  method : Method
  url : Bytes
  version : Version
  headers : List Header
  body : Bytes
  isUrl : url ≠ [] ∧ ∀ byte ∈ url, 33 ≤ byte ∧ byte ≤ 126
  isFramed : ∀ header ∈ headers, header.IsLength → Gives header.value body.length
  hasLength : body ≠ [] → ∃ header ∈ headers, header.IsLength

namespace HttpRequest

variable (request : HttpRequest)

def front : Bytes := request.method.name ++ 32 :: (request.url ++ [32])

def line : Bytes := request.front ++ request.version.name

def head : Bytes :=
  request.line ++ crlf ++ (request.headers.map Header.bytes).flatten ++ crlf

def bytes : Bytes := request.head ++ request.body

end HttpRequest

namespace HttpRequest

variable (request : HttpRequest)

def declared : Option Nat :=
  (request.headers.find? fun header => decide header.LooksLikeLength).map Header.declared

structure InOrder (first : Bytes) : Prop where
  method : request.method.name.length ≤ first.length
  version : first.length ≤ request.front.length ∨ request.line.length ≤ first.length

/-- The header has room in the buffer, and a name that only begins like that of the length gives
the length, too. -/
structure Readable : Prop where
  room : request.head.length ≤ headerMaxSize
  length : ∀ header, request.headers.find? (fun header => decide header.LooksLikeLength) =
    some header → header.IsLength ∨ header.declared = request.body.length

structure Dispatched (received : Received Request Dispatch) : Prop where
  ok : received.ok = true
  packages : ∃ byStatic, received.packages = [⟨request.bytes, byStatic⟩]

end HttpRequest

/-! ## The first line -/

theorem findMethod_append (method : Method) (rest : Bytes) :
    findMethod (method.name ++ rest) methods = some (some method) := by
  cases method <;> simp [findMethod, methods, memcmp, Method.name]

theorem findMethod_take (method : Method) :
    ∀ k < method.name.length, 0 < k → findMethod (method.name.take k) methods = none := by
  cases method <;> decide

theorem memcmp_version_take (version : Version) :
    ∀ k < 8, 0 < k → memcmp (version.name.take k) (Version.name .http11) = none := by
  cases version <;> decide

theorem length_version (version : Version) : version.name.length = 8 := by
  cases version <;> rfl

def Request.Lined (request request' : Request) : Prop :=
  ∃ method version urlOffset urlLength offset, request' =
    { request with
      method := some method
      version := version
      urlOffset := urlOffset
      urlLength := urlLength
      offset := offset }

section

variable {p : Nat} {bytes rest : Bytes} {request : Request}

theorem scanVersion_url (noSpace : ∀ byte ∈ bytes, isSpace byte = false) :
    scanVersion .url p (bytes ++ rest) request =
      scanVersion .url (p + bytes.length) rest request := by
  induction bytes generalizing p with
  | nil => rfl
  | cons byte bytes ih =>
    rw [cons_append, scanVersion, if_neg (by simp [noSpace byte (.head _)]),
      ih fun other isIn => noSpace other (.tail _ isIn), length_cons]
    congr 1
    omega

theorem scanVersion_method (noSpace : ∀ byte ∈ bytes, isSpace byte = false) (some : bytes ≠ []) :
    scanVersion .method p (bytes ++ rest) request =
      scanVersion .url (p + bytes.length) rest { request with urlOffset := p } := by
  obtain ⟨byte, bytes, rfl⟩ := exists_cons_of_ne_nil some
  rw [cons_append, scanVersion, if_neg (by simp [noSpace byte (.head _)]),
    scanVersion_url fun other isIn => noSpace other (.tail _ isIn),
    length_cons]
  congr 1
  omega

theorem scanVersion_version (version : Version) :
    scanVersion .version p (version.name ++ rest) request =
      (.ok, { request with version := some version, offset := p + 8 }) := by
  have noSpace : isSpace 72 = false := by decide
  cases version <;> simp [scanVersion, memcmp, Version.name, noSpace]

theorem scanVersion_cut (version : Version) {k : Nat} (some : 0 < k) (cut : k < 8) :
    scanVersion .version p (version.name.take k) request = (.overread, request) := by
  have compared := memcmp_version_take version k cut some
  obtain ⟨bytes, front⟩ : ∃ bytes, version.name.take k = 72 :: bytes := by
    obtain ⟨k, rfl⟩ : ∃ j, k = j + 1 := ⟨k - 1, by omega⟩
    cases version <;> exact ⟨_, rfl⟩
  rw [front] at compared ⊢
  rw [scanVersion, if_neg (by decide), compared]

end

namespace HttpRequest

variable (request : HttpRequest)

theorem url_noSpace : ∀ byte ∈ request.url, isSpace byte = false := by
  intro byte isIn
  have low := (request.isUrl.2 byte isIn).1
  rw [UInt8.le_iff_toNat_le] at low
  simp only [UInt8.reduceToNat] at low
  simp only [isSpace, Bool.or_eq_false_iff, beq_eq_false_iff_ne, ne_eq, Bool.and_eq_false_iff,
    decide_eq_false_iff_not]
  rw [UInt8.le_iff_toNat_le, UInt8.le_iff_toNat_le, ← UInt8.toNat_inj]
  simp only [UInt8.reduceToNat]
  omega

theorem length_front :
    request.front.length = request.method.name.length + 1 + request.url.length + 1 := by
  simp only [front, length_append, length_cons, length_nil]
  omega

theorem length_line : request.line.length = request.front.length + 8 := by
  rw [line, length_append, length_version]

theorem url_length_pos : 0 < request.url.length := List.length_pos_iff.2 request.isUrl.1

end HttpRequest

section

variable {request : HttpRequest} {filled : Request} {k : Nat}

theorem getProtocol_method (content : filled.content = request.bytes.take k) (some : 0 < k)
    (cut : k < request.method.name.length) : (getProtocol filled).1 = .overread := by
  have name : filled.content = request.method.name.take k := by
    rw [content, HttpRequest.bytes, HttpRequest.head, HttpRequest.line, HttpRequest.front]
    simp only [append_assoc]
    exact List.take_append_of_le_length (by omega)
  rw [getProtocol, name, findMethod_take _ k cut some]

theorem getProtocol_scan (content : filled.content = request.bytes.take k)
    (behind : request.method.name.length ≤ k) :
    getProtocol filled = scanVersion .method (request.method.name.length + 1)
      ((request.url ++ (32 :: (request.version.name ++ (crlf ++
        ((request.headers.map Header.bytes).flatten ++ (crlf ++ request.body)))))).take
          (k - (request.method.name.length + 1)))
      { filled with method := some request.method } := by
  have split : request.bytes = request.method.name ++ (32 :: (request.url ++
      (32 :: (request.version.name ++ (crlf ++
        ((request.headers.map Header.bytes).flatten ++ (crlf ++ request.body))))))) := by
    simp [HttpRequest.bytes, HttpRequest.head, HttpRequest.line, HttpRequest.front]
  rw [split, take_append, take_of_length_le behind] at content
  rw [getProtocol, content, findMethod_append]
  simp only [List.drop_append, List.drop_eq_nil_of_le (Nat.le_succ _), nil_append,
    Nat.add_sub_cancel_left]
  rw [List.drop_take, Nat.sub_sub]
  rfl

theorem getProtocol_version (content : filled.content = request.bytes.take k)
    (behind : request.front.length < k) (cut : k < request.line.length) :
    (getProtocol filled).1 = .overread := by
  rw [request.length_line] at cut
  have front := request.length_front
  rw [getProtocol_scan content (by omega)]
  have text : (request.url ++ (32 :: (request.version.name ++ (crlf ++
      ((request.headers.map Header.bytes).flatten ++ (crlf ++ request.body)))))).take
        (k - (request.method.name.length + 1)) =
      request.url ++ 32 :: request.version.name.take (k - request.front.length) := by
    rw [take_append, take_of_length_le (by omega)]
    obtain ⟨j, more⟩ : ∃ j, k - (request.method.name.length + 1) - request.url.length = j + 1 :=
      ⟨k - request.front.length, by omega⟩
    rw [more, take_succ_cons, List.take_append_of_le_length (by
      rw [length_version]
      omega)]
    congr 3
    omega
  rw [text, scanVersion_method request.url_noSpace request.isUrl.1, scanVersion,
    if_pos (by decide), scanVersion_cut _ (by omega) (by omega)]

theorem getProtocol_ok (content : filled.content = request.bytes.take k)
    (behind : request.method.name.length ≤ k)
    (outside : k ≤ request.front.length ∨ request.line.length ≤ k) :
    ∃ filled', getProtocol filled = (.ok, filled') ∧ filled.Lined filled' ∧
      filled'.offset ≤ request.line.length := by
  rw [getProtocol_scan content behind]
  have front := request.length_front
  have line := request.length_line
  have url := request.url_length_pos
  obtain ⟨j, isJ⟩ : ∃ j, k - (request.method.name.length + 1) = j := ⟨_, rfl⟩
  rw [isJ]
  rcases outside with before | whole
  · by_cases inUrl : j ≤ request.url.length
    · rw [List.take_append_of_le_length inUrl]
      by_cases none : j = 0
      · subst none
        exact ⟨_, rfl, ⟨_, _, _, _, _, rfl⟩, by simp only; omega⟩
      · have noSpace : ∀ byte ∈ request.url.take j, isSpace byte = false :=
          fun byte isIn => request.url_noSpace byte (List.mem_of_mem_take isIn)
        have some : request.url.take j ≠ [] := by
          intro empty
          have := congrArg List.length empty
          rw [length_take, length_nil] at this
          omega
        have scanned := @scanVersion_method (request.method.name.length + 1) _ []
          { filled with method := Option.some request.method } noSpace some
        rw [append_nil] at scanned
        rw [scanned]
        refine ⟨_, rfl, ⟨_, _, _, _, _, rfl⟩, ?_⟩
        simp only [length_take]
        omega
    · have text : (request.url ++ (32 :: (request.version.name ++ (crlf ++
          ((request.headers.map Header.bytes).flatten ++ (crlf ++ request.body)))))).take j =
          request.url ++ [32] := by
        obtain rfl : j = request.url.length + 1 := by omega
        rw [take_append, take_of_length_le (by omega), Nat.add_sub_cancel_left]
        rfl
      rw [text, scanVersion_method request.url_noSpace request.isUrl.1, scanVersion,
        if_pos (by decide)]
      refine ⟨_, rfl, ⟨_, _, _, _, _, rfl⟩, ?_⟩
      simp only
      omega
  · obtain ⟨rest, text⟩ : ∃ rest, (request.url ++ (32 :: (request.version.name ++ (crlf ++
        ((request.headers.map Header.bytes).flatten ++ (crlf ++ request.body)))))).take j =
        request.url ++ (32 :: (request.version.name ++ rest)) := by
      obtain ⟨i, more⟩ : ∃ i, j - request.url.length = 8 + i + 1 :=
        ⟨j - request.url.length - 9, by omega⟩
      refine ⟨List.take i (crlf ++ ((request.headers.map Header.bytes).flatten ++
        (crlf ++ request.body))), ?_⟩
      rw [take_append, take_of_length_le (by omega), more, take_succ_cons,
        take_append, take_of_length_le (by
          rw [length_version]
          omega), length_version, Nat.add_sub_cancel_left]
    rw [text, scanVersion_method request.url_noSpace request.isUrl.1, scanVersion,
      if_pos (by decide), scanVersion_version]
    refine ⟨_, rfl, ⟨_, _, _, _, _, rfl⟩, ?_⟩
    simp only
    omega

end

/-! ## The end of the header -/

section

variable {p : Nat} {bytes rest : Bytes}

theorem findHeaderEnd_append (noReturn : (13 : UInt8) ∉ bytes) :
    findHeaderEnd p (bytes ++ rest) = findHeaderEnd (p + bytes.length) rest := by
  induction bytes generalizing p with
  | nil => rfl
  | cons byte bytes ih =>
    have other : ¬ crlf ++ crlf <+: byte :: (bytes ++ rest) := by
      intro starts
      have same := (List.cons_prefix_cons.1 starts).1
      exact noReturn (same ▸ .head _)
    rw [cons_append, findHeaderEnd, if_neg other,
      ih fun isIn => noReturn (.tail _ isIn), length_cons]
    congr 1
    omega

theorem findHeaderEnd_bounds {found : Nat} (isFound : findHeaderEnd p bytes = some found) :
    p + 4 ≤ found ∧ found ≤ p + bytes.length := by
  induction bytes generalizing p with
  | nil => cases isFound
  | cons byte bytes ih =>
    rw [findHeaderEnd] at isFound
    rw [length_cons]
    split at isFound
    · next starts =>
        have := starts.length_le
        simp only [crlf, length_append, length_cons, length_nil] at this
        cases isFound
        omega
    · have := ih isFound
      omega

theorem findHeaderEnd_take (k : Nat) : findHeaderEnd p (bytes.take k) =
      (findHeaderEnd p bytes).filter fun found => decide (found ≤ p + k) := by
  induction bytes generalizing p k with
  | nil => rw [List.take_nil]; rfl
  | cons byte bytes ih =>
    cases k with
    | zero =>
      cases isFound : findHeaderEnd p (byte :: bytes) with
      | none => rfl
      | some found =>
        have := findHeaderEnd_bounds isFound
        rw [List.take_zero, findHeaderEnd, Option.filter_some, if_neg (by
          rw [decide_eq_true_eq]
          omega)]
    | succ k =>
      rw [take_succ_cons, findHeaderEnd, findHeaderEnd, ih]
      by_cases starts : crlf ++ crlf <+: byte :: bytes
      · have whole : crlf ++ crlf <+: byte :: bytes.take k ↔ 3 ≤ k := by
          rw [← take_succ_cons, List.prefix_take_iff, and_iff_right starts]
          simp [crlf]
        rw [if_pos starts, Option.filter_some]
        by_cases inside : 3 ≤ k
        · rw [if_pos (whole.2 inside), if_pos (decide_eq_true (by omega))]
        · rw [if_neg (mt whole.1 inside), if_neg (by
            rw [decide_eq_true_eq]
            omega), ← ih]
          cases isFound : findHeaderEnd (p + 1) (bytes.take k) with
          | none => rfl
          | some found =>
            have := findHeaderEnd_bounds isFound
            rw [length_take] at this
            omega
      · have cut : ¬ crlf ++ crlf <+: byte :: bytes.take k := by
          intro short
          exact starts (short.trans (List.cons_prefix_cons.2 ⟨rfl, List.take_prefix _ _⟩))
        rw [if_neg starts, if_neg cut]
        congr 1
        funext found
        congr 2
        omega

theorem Header.noReturn (header : Header) : (13 : UInt8) ∉ header.line := by
  rw [Header.line, List.mem_append, List.mem_cons]
  rintro (isIn | isColon | isIn)
  · exact absurd (header.isName.2 _ isIn).1 (by decide)
  · cases isColon
  · exact absurd (header.isValue _ isIn).1 (by decide)

theorem Header.line_cons (header : Header) :
    ∃ byte bytes, header.line = byte :: bytes ∧ byte ≠ 13 := by
  obtain ⟨byte, bytes, name⟩ := exists_cons_of_ne_nil header.isName.1
  refine ⟨byte, bytes ++ 58 :: header.value, by rw [Header.line, name, cons_append], ?_⟩
  rintro rfl
  exact header.noReturn (List.mem_append_left _ (name ▸ .head _))

theorem findHeaderEnd_headers (headers : List Header) :
    findHeaderEnd p (crlf ++ ((headers.map Header.bytes).flatten ++ (crlf ++ rest))) =
      some (p + 2 + (headers.map Header.bytes).flatten.length + 2) := by
  induction headers generalizing p with
  | nil =>
    rw [List.map_nil, List.flatten_nil, nil_append, ← append_assoc]
    have starts : crlf ++ crlf <+: 13 :: 10 :: 13 :: 10 :: rest := ⟨rest, rfl⟩
    exact (if_pos starts).trans rfl
  | cons header headers ih =>
    obtain ⟨byte, bytes, line, other⟩ := header.line_cons
    have text : crlf ++ (((header :: headers).map Header.bytes).flatten ++ (crlf ++ rest)) =
        13 :: 10 :: (header.line ++ (crlf ++ ((headers.map Header.bytes).flatten ++
          (crlf ++ rest)))) := by
      simp [Header.bytes, crlf]
    have goesOn : ¬ crlf ++ crlf <+: 13 :: 10 :: (header.line ++ (crlf ++
        ((headers.map Header.bytes).flatten ++ (crlf ++ rest)))) := by
      rw [line]
      simp [crlf, List.cons_prefix_cons, Ne.symm other]
    have feed : ¬ crlf ++ crlf <+: 10 :: (header.line ++ (crlf ++
        ((headers.map Header.bytes).flatten ++ (crlf ++ rest)))) := by
      simp [crlf, List.cons_prefix_cons]
    rw [text, findHeaderEnd, if_neg goesOn, findHeaderEnd, if_neg feed,
      findHeaderEnd_append header.noReturn, ih]
    simp only [List.map_cons, List.flatten_cons, Header.bytes, length_append, crlf,
      length_cons, length_nil]
    congr 1
    omega

end

/-! ## The length of the body -/

section

variable {bytes rest : Bytes}

theorem toLower_eq_return {byte : UInt8} (same : toLower byte = 13) : byte = 13 := by
  unfold toLower at same
  split at same
  · next upper =>
      rw [UInt8.le_iff_toNat_le, UInt8.le_iff_toNat_le] at upper
      rw [← UInt8.toNat_inj, UInt8.toNat_add] at same
      simp only [UInt8.reduceToNat] at upper same
      omega
  · exact same

theorem findLength_cons_of_ne {byte : UInt8} (other : byte ≠ 13) :
    findLength (byte :: bytes) = findLength bytes := by
  rw [findLength, if_neg]
  rintro ⟨-, same⟩
  rw [take_succ_cons, List.map_cons] at same
  exact other (toLower_eq_return (List.cons.inj same).1)

theorem findLength_append (noReturn : (13 : UInt8) ∉ bytes) :
    findLength (bytes ++ rest) = findLength rest := by
  induction bytes with
  | nil => rfl
  | cons byte bytes ih =>
    rw [cons_append, findLength_cons_of_ne fun same => noReturn (same ▸ .head _),
      ih fun isIn => noReturn (.tail _ isIn)]

theorem looksLikeLength_iff (header : Header) (rest : Bytes) :
    ((13 :: 10 :: (header.line ++ rest)).length > 15 ∧
      ((13 :: 10 :: (header.line ++ rest)).take 16).map toLower = crlf ++ lengthName) ↔
      header.LooksLikeLength := by
  have colon : header.line ++ rest = header.name ++ 58 :: (header.value ++ rest) := by
    rw [Header.line, append_assoc, cons_append]
  have name : lengthName.length = 14 := rfl
  rw [colon, Header.LooksLikeLength]
  simp only [take_succ_cons, List.map_cons, crlf, cons_append, nil_append,
    show toLower 13 = 13 from rfl, show toLower 10 = 10 from rfl, List.cons.injEq, true_and]
  by_cases long : 14 ≤ header.name.length
  · rw [List.take_append_of_le_length long, List.prefix_iff_eq_take, name, ← List.map_take,
      @eq_comm _ lengthName]
    refine and_iff_right ?_
    simp only [length_cons, length_append]
    omega
  · constructor
    · rintro ⟨-, same⟩
      -- the colon is none of the bytes of the name
      obtain ⟨j, more⟩ : ∃ j, 14 - header.name.length = j + 1 := ⟨13 - header.name.length, by omega⟩
      rw [take_append, more, take_succ_cons] at same
      have isIn : toLower 58 ∈ lengthName := by
        rw [← same]
        exact List.mem_map_of_mem (List.mem_append_right _ (.head _))
      exact absurd isIn (by decide)
    · intro starts
      have := starts.length_le
      rw [name, length_map] at this
      exact absurd this long

def Stops (text : Bytes) (number : Int) : Prop :=
  ∀ rest, (strtol (text ++ rest)).1 = number ∧ atoiRest (text ++ rest) ≠ []

theorem takeWhile_stop {keep : UInt8 → Bool} {byte : UInt8} (stop : keep byte = false)
    (bytes rest : Bytes) : (bytes ++ byte :: rest).takeWhile keep = bytes.takeWhile keep := by
  induction bytes with
  | nil => simp [stop]
  | cons first bytes ih =>
    rw [cons_append, List.takeWhile_cons, List.takeWhile_cons, ih]

theorem drop_takeWhile (keep : UInt8 → Bool) (bytes rest : Bytes) :
    (bytes ++ rest).drop (bytes.takeWhile keep).length = bytes.dropWhile keep ++ rest := by
  have split := List.takeWhile_append_dropWhile (p := keep) (l := bytes)
  calc (bytes ++ rest).drop (bytes.takeWhile keep).length
      = (bytes.takeWhile keep ++ bytes.dropWhile keep ++ rest).drop
          (bytes.takeWhile keep).length := by rw [split]
    _ = bytes.dropWhile keep ++ rest := by rw [append_assoc, List.drop_left]

theorem dropWhile_stop {keep : UInt8 → Bool} {byte : UInt8} (stop : keep byte = false)
    (bytes rest : Bytes) :
    (bytes ++ byte :: rest).dropWhile keep = bytes.dropWhile keep ++ byte :: rest := by
  induction bytes with
  | nil => simp [stop]
  | cons first bytes ih =>
    rw [cons_append, List.dropWhile_cons, List.dropWhile_cons, ih]
    split <;> rfl

def unsigned (text : Bytes) : Bytes :=
  text.drop (if text.head? = some 43 ∨ text.head? = some 45 then 1 else 0)

theorem unsigned_append {byte : UInt8} (noSign : byte ≠ 43 ∧ byte ≠ 45) (text rest : Bytes) :
    unsigned (text ++ byte :: rest) = unsigned text ++ byte :: rest := by
  cases text with
  | nil => simp [unsigned, noSign]
  | cons first text =>
    by_cases sign : first = 43 ∨ first = 45 <;> simp [unsigned, sign]

theorem strtol_fst (bytes : Bytes) : (strtol bytes).1 =
      if (unsigned (bytes.dropWhile isSpace)).takeWhile isDigit = [] then 0
      else max (-2 ^ 63) (min (2 ^ 63 - 1) ( if (bytes.dropWhile isSpace).head? = some 45 then
          -(RedisProtocol.decimal ((unsigned (bytes.dropWhile isSpace)).takeWhile isDigit) : Int)
        else RedisProtocol.decimal ((unsigned (bytes.dropWhile isSpace)).takeWhile isDigit))) := by
  have blank := drop_takeWhile isSpace bytes []
  rw [append_nil, append_nil] at blank
  unfold strtol
  simp only [blank]
  rw [← unsigned]
  split <;> rfl

theorem atoiRest_eq (bytes : Bytes) :
    atoiRest bytes = (unsigned (bytes.dropWhile isSpace)).dropWhile isDigit := rfl

theorem stops_colon (bytes more : Bytes) : ∃ number, Stops (bytes ++ 58 :: more) number := by
  have head (text rest : Bytes) : (text ++ 58 :: rest).head? = some 45 ↔ text.head? = some 45 := by
    cases text <;> simp
  refine ⟨(strtol (bytes ++ 58 :: more)).1, fun rest => ⟨?_, ?_⟩⟩
  · rw [append_assoc, cons_append]
    simp only [strtol_fst, dropWhile_stop (by decide : isSpace 58 = false),
      unsigned_append (by decide : (58 : UInt8) ≠ 43 ∧ (58 : UInt8) ≠ 45),
      takeWhile_stop (by decide : isDigit 58 = false), head]
  · rw [append_assoc, cons_append, atoiRest_eq,
      dropWhile_stop (by decide : isSpace 58 = false),
      unsigned_append (by decide : (58 : UInt8) ≠ 43 ∧ (58 : UInt8) ≠ 45),
      dropWhile_stop (by decide : isDigit 58 = false)]
    exact List.append_ne_nil_of_right_ne_nil _ (List.cons_ne_nil _ _)

theorem stops_digits {blank digits after : Bytes} {number : Nat} {byte : UInt8}
    (small : number < 2 ^ 63) (isBlank : ∀ byte ∈ blank, isSpace byte = true)
    (denotes : Denotes digits number) (ends : isDigit byte = false) :
    Stops (blank ++ (digits ++ byte :: after)) number := by
  obtain ⟨first, others, rfl⟩ := exists_cons_of_ne_nil denotes.nonempty
  have noSpace := RedisProtocol.isSpace_of_isDigit (denotes.each first (.head _))
  have text (rest : Bytes) :
      (blank ++ (first :: others ++ byte :: after) ++ rest).dropWhile isSpace =
      first :: others ++ byte :: (after ++ rest) := by
    rw [append_assoc, List.dropWhile_append_of_pos isBlank, append_assoc,
      cons_append, cons_append, List.dropWhile_cons_of_neg (by simp [noSpace])]
    rfl
  have behind (rest : Bytes) : (byte :: rest).takeWhile isDigit = [] := by
    rw [List.takeWhile_cons_of_neg (by simp [ends])]
  intro rest
  constructor
  · have digitsOnly := RedisProtocol.strtol_digits denotes small (behind (after ++ rest))
    have plain : (first :: others ++ byte :: (after ++ rest)).dropWhile isSpace =
        first :: others ++ byte :: (after ++ rest) :=
      List.dropWhile_cons_of_neg (by simp [noSpace])
    rw [strtol_fst, text, ← plain, ← strtol_fst, digitsOnly]
  · have noSign : unsigned (first :: others ++ byte :: (after ++ rest)) =
        first :: others ++ byte :: (after ++ rest) := by
      have digit := denotes.each first (.head _)
      have plus : first ≠ 43 := by rintro rfl; cases digit
      have minus : first ≠ 45 := by rintro rfl; cases digit
      simp [unsigned, plus, minus]
    rw [atoiRest_eq, text, noSign, dropWhile_stop ends]
    exact List.append_ne_nil_of_right_ne_nil _ (List.cons_ne_nil _ _)

theorem strstrCrlf_append (plain : ∀ byte ∈ bytes, byte ≠ 0 ∧ byte ≠ 13) :
    strstrCrlf (bytes ++ (crlf ++ rest)) = some true := by
  induction bytes with
  | nil => rfl
  | cons byte bytes ih =>
    obtain ⟨noZero, noReturn⟩ := plain byte (.head _)
    have other : ¬ crlf <+: byte :: (bytes ++ (crlf ++ rest)) := fun starts =>
      noReturn (List.cons_prefix_cons.1 starts).1.symm
    rw [cons_append, strstrCrlf, if_neg noZero, if_neg other,
      ih fun other isIn => plain other (.tail _ isIn)]

theorem skipSpace_append (some : bytes ≠ []) :
    skipSpace (bytes ++ rest) = skipSpace bytes ++ rest := by
  obtain ⟨byte, bytes, rfl⟩ := exists_cons_of_ne_nil some
  rw [cons_append, skipSpace, skipSpace]
  split <;> rfl

theorem mem_of_mem_skipSpace {byte : UInt8} (isIn : byte ∈ skipSpace bytes) : byte ∈ bytes := by
  cases bytes with
  | nil => cases isIn
  | cons first bytes =>
    rw [skipSpace] at isIn
    split at isIn
    · exact .tail _ isIn
    · exact isIn

theorem Header.plain (header : Header) : ∀ byte ∈ header.line, byte ≠ 0 ∧ byte ≠ 13 := by
  intro byte isIn
  refine ⟨?_, fun same => header.noReturn (same ▸ isIn)⟩
  rintro rfl
  rw [Header.line, List.mem_append, List.mem_cons] at isIn
  obtain isName | isColon | isValue := isIn
  · exact absurd (header.isName.2 _ isName).1 (by decide)
  · cases isColon
  · exact absurd (header.isValue _ isValue).1 (by decide)

theorem lengthValue_eq {header : Header} {text : Bytes} {number : Int} (some : text ≠ [])
    (isText : header.line.drop 15 = text) (long : 15 ≤ header.line.length)
    (stops : Stops (skipSpace text ++ crlf) number) :
    lengthValue (header.bytes.drop 15 ++ rest) = (.ok, header.declared) ∧
      header.declared = (asInt number % 2 ^ 32).toNat := by
  have split : header.bytes.drop 15 = text ++ crlf := by
    rw [Header.bytes, List.drop_append_of_le_length long, isText]
  have plain : ∀ byte ∈ skipSpace text, byte ≠ 0 ∧ byte ≠ 13 := fun byte isIn =>
    header.plain byte (List.mem_of_mem_drop (isText ▸ mem_of_mem_skipSpace isIn))
  have declared : header.declared = (asInt number % 2 ^ 32).toNat := by
    have ends := (stops []).1
    rw [append_nil] at ends
    rw [Header.declared, split, skipSpace_append some, atoi, ends]
  refine ⟨?_, declared⟩
  have nonempty : text ++ crlf ++ rest ≠ [] := by simp [some]
  have skipped : skipSpace (text ++ crlf ++ rest) = skipSpace text ++ crlf ++ rest := by
    rw [append_assoc, skipSpace_append some, append_assoc]
  have found : strstrCrlf (skipSpace text ++ crlf ++ rest) = Option.some true := by
    rw [append_assoc]
    exact strstrCrlf_append plain
  obtain ⟨ends, more⟩ := stops rest
  rw [split, lengthValue, if_neg nonempty, skipped, found]
  dsimp only
  rw [if_neg more, atoi, ends, declared]

theorem skipSpace_blank {blank : Bytes} (isBlank : ∀ byte ∈ blank, byte = 32 ∨ byte = 9)
    {byte : UInt8} (other : byte ≠ 32) : ∃ blank', (∀ byte ∈ blank', byte = 32 ∨ byte = 9) ∧
      skipSpace (blank ++ byte :: rest) = blank' ++ byte :: rest := by
  cases blank with
  | nil => exact ⟨[], isBlank, by rw [nil_append, skipSpace, if_neg other]⟩
  | cons first blank =>
    rw [cons_append, skipSpace]
    split
    · exact ⟨blank, fun byte isIn => isBlank byte (.tail _ isIn), rfl⟩
    · exact ⟨first :: blank, isBlank, rfl⟩

theorem Header.declared_isLength {header : Header} {number : Nat} (isLength : header.IsLength)
    (gives : Gives header.value number) (small : number < 2 ^ 32) (rest : Bytes) :
    lengthValue (header.bytes.drop 15 ++ rest) = (.ok, header.declared) ∧
      header.declared = number := by
  obtain ⟨before, digits, after, value, denotes, isBlank⟩ := gives
  have name : header.name.length = 14 := by
    have := congrArg List.length isLength
    rwa [length_map] at this
  have isText : header.line.drop 15 = header.value := by
    rw [Header.line, List.drop_append, List.drop_eq_nil_of_le (by omega), name]
    rfl
  obtain ⟨first, others, digits_eq⟩ := exists_cons_of_ne_nil denotes.nonempty
  have noSpace : first ≠ 32 := by
    rintro rfl
    exact absurd (denotes.each 32 (digits_eq ▸ .head _)) (by decide)
  have text : header.value = before ++ first :: (others ++ after) := by
    rw [value, digits_eq, append_assoc, cons_append]
  obtain ⟨blank, isBlank', skipped⟩ := @skipSpace_blank (others ++ after) before
    (fun byte isIn => isBlank byte (List.mem_append_left _ isIn)) first noSpace
  have isSpaces : ∀ byte ∈ blank, isSpace byte = true := by
    intro byte isIn
    rcases isBlank' byte isIn with rfl | rfl <;> decide
  have stops : Stops (skipSpace header.value ++ crlf) number := by
    obtain ⟨last, behind, ends, noDigit⟩ : ∃ last behind, after ++ crlf = last :: behind ∧
        isDigit last = false := by
      cases after with
      | nil => exact ⟨13, [10], rfl, by decide⟩
      | cons last after =>
        refine ⟨last, after ++ crlf, rfl, ?_⟩
        rcases isBlank last (List.mem_append_right _ (.head _)) with rfl | rfl <;> decide
    have := @stops_digits blank digits behind number last (by omega) isSpaces denotes noDigit
    rw [text, skipped, append_assoc, cons_append, append_assoc, ends,
      ← cons_append, ← digits_eq]
    exact this
  obtain ⟨result, declared⟩ := @lengthValue_eq rest header header.value number
    (by rw [text]; simp) isText (by
    rw [Header.line, length_append, name, length_cons]
    omega) stops
  refine ⟨result, declared.trans ?_⟩
  unfold asInt
  omega

theorem Header.declared_longer {header : Header} (looks : header.LooksLikeLength)
    (other : ¬ header.IsLength) (rest : Bytes) :
    lengthValue (header.bytes.drop 15 ++ rest) = (.ok, header.declared) := by
  have longer : 14 < header.name.length := by
    have short := looks.length_le
    rw [length_map] at short
    refine lt_of_le_of_ne short fun same => other ?_
    exact (looks.eq_of_length (by rw [length_map]; exact same)).symm
  have isText : header.line.drop 15 = header.name.drop 15 ++ 58 :: header.value := by
    rw [Header.line, List.drop_append_of_le_length (by omega)]
  obtain ⟨number, stops⟩ : ∃ number,
      Stops (skipSpace (header.name.drop 15 ++ 58 :: header.value) ++ crlf) number := by
    have skipped : skipSpace (header.name.drop 15 ++ 58 :: header.value) =
        header.name.drop 15 ++ 58 :: header.value := by
      cases tail : header.name.drop 15 with
      | nil => rfl
      | cons first others =>
        have isIn : first ∈ header.name :=
          List.mem_of_mem_drop (tail ▸ .head _ : first ∈ header.name.drop 15)
        rw [cons_append, skipSpace, if_neg]
        rintro rfl
        exact absurd (header.isName.2 _ isIn).1 (by decide)
    rw [skipped, append_assoc, cons_append]
    exact stops_colon _ _
  exact (lengthValue_eq (by simp) isText (by
    rw [Header.line, length_append]
    omega) stops).1

theorem findLength_end : findLength (13 :: 10 :: 13 :: [10]) = (.err, 0) := by decide

theorem findLength_headers (headers : List Header)
    (noBody : (∀ header ∈ headers, ¬ header.LooksLikeLength) → rest = []) :
    findLength (crlf ++ ((headers.map Header.bytes).flatten ++ (crlf ++ rest))) =
      match headers.find? fun header => decide header.LooksLikeLength with
      | none => (.err, 0)
      | some header => lengthValue (header.bytes.drop 15 ++
          (((headers.dropWhile fun header => !decide header.LooksLikeLength).tail.map
            Header.bytes).flatten ++ (crlf ++ rest))) := by
  induction headers with
  | nil =>
    obtain rfl := noBody (by simp)
    exact findLength_end
  | cons header headers ih =>
    have text : crlf ++ (((header :: headers).map Header.bytes).flatten ++ (crlf ++ rest)) =
        13 :: 10 :: (header.line ++ (crlf ++ ((headers.map Header.bytes).flatten ++
          (crlf ++ rest)))) := by
      simp [Header.bytes, crlf]
    rw [text, findLength]
    by_cases looks : header.LooksLikeLength
    · have long : 14 ≤ header.line.length := by
        have := looks.length_le
        rw [length_map] at this
        rw [Header.line, length_append]
        exact Nat.le_add_right_of_le this
      have enough : 15 ≤ header.bytes.length := by
        rw [Header.bytes, length_append]
        exact Nat.add_le_add long (by decide : 1 ≤ crlf.length)
      rw [if_pos ((looksLikeLength_iff header _).2 looks), List.find?_cons_of_pos (by simpa),
        List.dropWhile_cons_of_neg (by simpa), List.tail_cons]
      dsimp only
      rw [← List.drop_append_of_le_length enough, ← append_assoc header.line]
      rfl
    · rw [if_neg (mt (looksLikeLength_iff header _).1 looks), List.find?_cons_of_neg (by simpa),
        List.dropWhile_cons_of_pos (by simpa), findLength_cons_of_ne (by decide),
        findLength_append header.noReturn]
      exact ih fun others => noBody (by simpa [looks] using others)

end

/-! ## What a receive finds -/

section

variable {request : HttpRequest} {filled : Request} {k : Nat}

theorem HttpRequest.line_noReturn (request : HttpRequest) : (13 : UInt8) ∉ request.line := by
  have method : (13 : UInt8) ∉ request.method.name := by cases request.method <;> decide
  have version : (13 : UInt8) ∉ request.version.name := by cases request.version <;> decide
  have url : (13 : UInt8) ∉ request.url := fun isIn =>
    absurd (request.isUrl.2 _ isIn).1 (by decide)
  simp [HttpRequest.line, HttpRequest.front, method, version, url]

theorem HttpRequest.drop_head (request : HttpRequest) {offset : Nat}
    (inside : offset ≤ request.line.length) (rest : Bytes) :
    (request.head ++ rest).drop offset = request.line.drop offset ++
      (crlf ++ ((request.headers.map Header.bytes).flatten ++ (crlf ++ rest))) := by
  rw [HttpRequest.head, append_assoc, append_assoc, append_assoc,
    List.drop_append_of_le_length inside]

theorem HttpRequest.length_head (request : HttpRequest) : request.head.length =
    request.line.length + 2 + (request.headers.map Header.bytes).flatten.length + 2 := by
  simp only [HttpRequest.head, length_append, crlf, length_cons, length_nil]

theorem getHeaderLength_eq (content : filled.content = request.bytes.take k)
    (inside : filled.offset ≤ request.line.length) : getHeaderLength filled =
      if request.head.length ≤ k then some request.head.length else none := by
  have length := request.length_head
  have found : findHeaderEnd filled.offset (request.bytes.drop filled.offset) =
      some request.head.length := by
    rw [HttpRequest.bytes, request.drop_head inside, findHeaderEnd_append (fun isIn =>
      request.line_noReturn (List.mem_of_mem_drop isIn)), findHeaderEnd_headers,
      List.length_drop, length]
    congr 1
    omega
  rw [getHeaderLength, content, List.drop_take, findHeaderEnd_take, found, Option.filter_some]
  refine if_congr ?_ rfl rfl
  rw [decide_eq_true_eq]
  omega

theorem HttpRequest.headers_of_body (request : HttpRequest) (body : request.body ≠ []) :
    ∃ header ∈ request.headers, header.LooksLikeLength := by
  obtain ⟨header, isIn, isLength⟩ := request.hasLength body
  exact ⟨header, isIn, ⟨[], by rw [append_nil, isLength]⟩⟩

theorem getContentLength_eq (content : filled.content = request.bytes.take k)
    (inside : filled.offset ≤ request.line.length) (whole : request.head.length ≤ k)
    (small : request.body.length < 2 ^ 32) : getContentLength filled = match request.declared with
      | none => (.err, 0)
      | some length => (.ok, length) := by
  have text : filled.content = request.head ++ request.body.take (k - request.head.length) := by
    rw [content, HttpRequest.bytes, take_append, take_of_length_le whole]
  rw [getContentLength, text, request.drop_head inside, findLength_append (fun isIn =>
    request.line_noReturn (List.mem_of_mem_drop isIn)), findLength_headers, HttpRequest.declared]
  · cases found : request.headers.find? fun header => decide header.LooksLikeLength with
    | none => rfl
    | some header =>
      have looks : header.LooksLikeLength := by simpa using List.find?_some found
      have isIn := List.mem_of_find?_eq_some found
      by_cases isLength : header.IsLength
      · exact (Header.declared_isLength isLength (request.isFramed header isIn isLength)
          small _).1
      · exact Header.declared_longer looks isLength _
  · intro none
    have noBody : request.body = [] := by
      by_contra body
      obtain ⟨header, isIn, looks⟩ := request.headers_of_body body
      exact none header isIn looks
    rw [noBody, List.take_nil]

theorem HttpRequest.body_of_declared (declared : request.declared = none) : request.body = [] := by
  by_contra body
  obtain ⟨header, isIn, looks⟩ := request.headers_of_body body
  have none := Option.map_eq_none_iff.1 declared
  exact absurd looks (by simpa using List.find?_eq_none.1 none header isIn)

theorem HttpRequest.readable_iff (room : request.head.length ≤ headerMaxSize) {length : Nat}
    (declared : request.declared = some length) (small : request.body.length < 2 ^ 32) :
    request.Readable ↔ length = request.body.length := by
  obtain ⟨header, found, rfl⟩ := Option.map_eq_some_iff.1 declared
  constructor
  · rintro ⟨-, same⟩
    refine (same header found).elim (fun isLength => ?_) id
    exact (Header.declared_isLength isLength
      (request.isFramed header (List.mem_of_find?_eq_some found) isLength) small []).2
  · refine fun same => ⟨room, fun other isFound => .inr ?_⟩
    obtain rfl := Option.some.inj (found.symm.trans isFound)
    exact same

theorem HttpRequest.readable_of_none (room : request.head.length ≤ headerMaxSize)
    (declared : request.declared = none) : request.Readable :=
  ⟨room, fun header found => by
    have := Option.map_eq_none_iff.1 declared
    rw [found] at this
    cases this⟩

theorem HttpRequest.drop_head_end (request : HttpRequest) :
    request.head.drop (request.head.length - 4) = crlf ++ crlf := by
  obtain ⟨others, ends⟩ : ∃ others, request.head = others ++ (crlf ++ crlf) := by
    rcases List.eq_nil_or_concat request.headers with none | ⟨headers, header, split⟩
    · exact ⟨request.line, by simp [HttpRequest.head, none]⟩
    · refine ⟨request.line ++ crlf ++ (headers.map Header.bytes).flatten ++ header.line, ?_⟩
      rw [HttpRequest.head, split]
      simp [Header.bytes]
  rw [ends]
  exact List.drop_left' (by simp [crlf])

end

structure Waiting (setting : Setting) (request : HttpRequest) (state : Request) (k : Nat) :
    Prop where
  content : state.content = request.bytes.take k
  method : state.method ≠ none
  offset : state.offset ≤ request.line.length
  stage : (state.headerLength = 0 ∧ state.contentLength = 0 ∧ state.size = headerMaxSize ∧
      k < request.head.length) ∨
    (state.headerLength = request.head.length ∧ request.head.length ≤ headerMaxSize ∧
      state.contentLength ≠ 0 ∧ request.declared = some state.contentLength ∧
      state.contentLength ≤ setting.packageMaxLength - headerMaxSize ∧
      request.head.length ≤ k ∧ k < request.head.length + state.contentLength)

/-- What a receive leads to: the end of the connection, a request that is handed over, in whole or
in part, or the next receive. -/
inductive Step (setting : Setting) (request : HttpRequest) (k : Nat)
    (receipt : Receipt Request Dispatch) : Prop where
  | waits (outcome : receipt.outcome = .again) (packages : receipt.packages = [])
      (waiting : Waiting setting request receipt.state k)
  | closes (outcome : receipt.outcome = .error) (packages : receipt.packages = [])
      (unreadable : ¬ request.Readable)
  | dispatches (outcome : receipt.outcome = .ok) (length : Nat) (byStatic : Bool)
      (packages : receipt.packages = [⟨request.bytes.take length, byStatic⟩])
      (received : length ≤ k) (whole : length = request.bytes.length ↔ request.Readable)

section

variable {setting : Setting} {request : HttpRequest} {filled : Request} {k : Nat}

theorem HttpRequest.length_bytes (request : HttpRequest) :
    request.bytes.length = request.head.length + request.body.length := length_append

theorem receiveTotal_step (content : filled.content = request.bytes.take k)
    (method : filled.method ≠ none) (offset : filled.offset ≤ request.line.length)
    (total : k ≤ request.bytes.length)
    (limit : request.body.length ≤ setting.packageMaxLength - headerMaxSize)
    (header : filled.headerLength = request.head.length)
    (room : request.head.length ≤ headerMaxSize)
    (declared : request.declared = some filled.contentLength)
    (most : filled.contentLength ≤ setting.packageMaxLength - headerMaxSize)
    (whole : request.head.length ≤ k) : Step setting request k (receiveTotal filled) := by
  have uint := setting.isUint
  have atLeast := setting.atLeast
  have max : headerMaxSize = 8192 := rfl
  have sum : (filled.headerLength + filled.contentLength) % 2 ^ 32 =
      request.head.length + filled.contentLength := by
    rw [header]
    exact Nat.mod_eq_of_lt (by omega)
  have length := request.length_bytes
  have readable := request.readable_iff room declared (by omega)
  rw [receiveTotal, sum, content, List.take_take]
  by_cases complete : request.head.length + filled.contentLength ≤ k
  · rw [Nat.min_eq_left complete, if_pos (by rw [length_take]; omega)]
    refine .dispatches rfl _ _ rfl complete ?_
    rw [readable]
    omega
  · rw [Nat.min_eq_right (by omega), if_neg (by rw [length_take]; omega)]
    refine .waits rfl rfl ⟨rfl, method, offset, .inr ?_⟩
    exact ⟨header, room, by dsimp only; omega, declared, most, whole, by dsimp only; omega⟩

theorem receiveBody_step (content : filled.content = request.bytes.take k)
    (method : filled.method ≠ none) (offset : filled.offset ≤ request.line.length)
    (total : k ≤ request.bytes.length)
    (limit : request.body.length ≤ setting.packageMaxLength - headerMaxSize)
    (header : filled.headerLength = request.head.length)
    (room : request.head.length ≤ headerMaxSize) (none : filled.contentLength = 0)
    (whole : request.head.length ≤ k) : Step setting request k (receiveBody setting filled) := by
  have uint := setting.isUint
  have found := getContentLength_eq content offset whole (by omega)
  rw [receiveBody, if_pos none, found]
  cases declared : request.declared with
  | none =>
    have body := request.body_of_declared declared
    have length : request.bytes.length = request.head.length := by
      rw [request.length_bytes, body]
      rfl
    have all : filled.content = request.bytes := by
      rw [content, take_of_length_le (by omega)]
    have ends : filled.content.drop (filled.content.length - 4) = crlf ++ crlf := by
      rw [all, HttpRequest.bytes, body, append_nil]
      exact request.drop_head_end
    dsimp only
    rw [if_pos ends, all]
    refine .dispatches rfl request.bytes.length (setting.staticHandler filled) ?_ (by omega) ?_
    · rw [List.take_length]
    · exact iff_of_true rfl (request.readable_of_none room declared)
  | some length =>
    dsimp only
    split
    · next tooBig =>
        refine .closes rfl rfl fun readable => ?_
        have := (request.readable_iff room declared (by omega)).1 readable
        omega
    · next small =>
        exact receiveTotal_step content method offset total limit header room declared
          (by dsimp only; omega) whole

theorem receiveHeader_first (content : filled.content = request.bytes.take k)
    (method : filled.method ≠ none) (offset : filled.offset ≤ request.line.length)
    (total : k ≤ request.bytes.length) (size : filled.size = headerMaxSize)
    (room : k ≤ headerMaxSize)
    (limit : request.body.length ≤ setting.packageMaxLength - headerMaxSize)
    (header : filled.headerLength = 0) (none : filled.contentLength = 0) :
    Step setting request k (receiveHeader setting filled) := by
  rw [receiveHeader, if_pos header, getHeaderLength_eq content offset]
  by_cases whole : request.head.length ≤ k
  · rw [if_pos whole]
    exact receiveBody_step content method offset total limit rfl (whole.trans room) none whole
  · have length : filled.content.length = k := by rw [content, length_take]; omega
    rw [if_neg whole, size, length]
    dsimp only
    split
    · next full =>
        refine .closes rfl rfl fun readable => whole ?_
        exact readable.room.trans full.le
    · exact .waits rfl rfl ⟨content, method, offset, .inl ⟨header, none, size, by omega⟩⟩

end

section

variable {setting : Setting} {request : HttpRequest} {state : Request} {chunk : Bytes}

/-- What a receive may bring: something, and no more than there is room for. -/
def Arrives (state : Request) (chunk : Bytes) : Prop :=
  chunk ≠ [] ∧ chunk.length ≤ state.size - state.content.length

instance : Decidable (Arrives state chunk) := inferInstanceAs (Decidable (_ ∧ _))

theorem append_take {stream : Bytes} (isPrefix : stream ++ chunk <+: request.bytes)
    (content : state.content = request.bytes.take stream.length) :
    state.content ++ chunk = request.bytes.take (stream ++ chunk).length := by
  have front : request.bytes.take stream.length = stream :=
    (List.prefix_iff_eq_take.1 ((List.prefix_append _ _).trans isPrefix)).symm
  rw [content, front]
  exact List.prefix_iff_eq_take.1 isPrefix

theorem onReadHttp_waiting {stream : Bytes} (isPrefix : stream ++ chunk <+: request.bytes)
    (waiting : Waiting setting request state stream.length) (arrives : Arrives state chunk)
    (limit : request.body.length ≤ setting.packageMaxLength - headerMaxSize) :
    Step setting request (stream ++ chunk).length (onReadHttp setting state chunk) := by
  obtain ⟨content, method, offset, stage⟩ := waiting
  have total := isPrefix.length_le
  have filled := append_take isPrefix content
  have length : state.content.length = stream.length := by
    rw [length_append] at total
    rw [content, length_take]
    omega
  rw [onReadHttp]
  dsimp only
  rw [if_neg method]
  rcases stage with ⟨header, none, size, short⟩ | ⟨header, room, some, declared, most, whole, short⟩
  · have fits := arrives.2
    have someBytes := List.length_pos_iff.2 arrives.1
    exact receiveHeader_first filled method offset total size
      (by rw [length_append]; omega) limit header none
  · have lineLength := request.length_line
    have headLength := request.length_head
    rw [receiveHeader, if_neg (by dsimp only; omega), receiveBody, if_neg some]
    exact receiveTotal_step filled method offset total limit header room declared most
      (by rw [length_append]; omega)

/-- After some receives: the request is waited for, or it has been handed over as it is, or
something else has been. -/
inductive Progress (setting : Setting) (request : HttpRequest) (state : Request) (stream : Bytes) :
    List Dispatch → Prop where
  | waiting (waiting : Waiting setting request state stream.length) :
      Progress setting request state stream []
  | done (readable : request.Readable) (whole : stream = request.bytes) (byStatic : Bool) :
      Progress setting request state stream [⟨request.bytes, byStatic⟩]
  | other (unreadable : ¬ request.Readable) (first : Dispatch) (packages : List Dispatch)
      (differs : first.bytes ≠ request.bytes) :
      Progress setting request state stream (first :: packages)

theorem Step.progress {stream : Bytes} {receipt : Receipt Request Dispatch}
    (step : Step setting request stream.length receipt) (isPrefix : stream <+: request.bytes)
    (noError : receipt.outcome ≠ .error) :
    Progress setting request receipt.state stream receipt.packages := by
  cases step with
  | waits outcome packages waiting =>
    rw [packages]
    exact .waiting waiting
  | closes outcome => exact absurd outcome noError
  | dispatches outcome length byStatic packages received whole =>
    have total := isPrefix.length_le
    rw [packages]
    by_cases readable : request.Readable
    · have all := whole.2 readable
      rw [all, List.take_length]
      exact .done readable (isPrefix.eq_of_length (by omega)) byStatic
    · refine .other readable _ _ fun same => readable (whole.1 ?_)
      have := congrArg List.length same
      rw [length_take] at this
      omega

theorem keeps_progress (limit : request.body.length ≤ setting.packageMaxLength - headerMaxSize) :
    Keeps (onReadHttp setting) Arrives (fun state stream packages => stream <+: request.bytes →
        Progress setting request state stream packages)
      (fun _ stream _ => stream <+: request.bytes → ¬ request.Readable) where
  keeps := by
    intro state stream packages chunk holds arrives noError isPrefix
    cases holds ((List.prefix_append _ _).trans isPrefix) with
    | waiting waiting =>
      exact (onReadHttp_waiting isPrefix waiting arrives limit).progress isPrefix noError
    | done readable whole =>
      have := isPrefix.length_le
      have some := List.length_pos_iff.2 arrives.1
      rw [length_append, whole] at this
      omega
    | other unreadable first packages differs => exact .other unreadable first _ differs
  closes := by
    intro state stream packages chunk holds arrives error isPrefix
    cases holds ((List.prefix_append _ _).trans isPrefix) with
    | waiting waiting =>
      cases onReadHttp_waiting isPrefix waiting arrives limit with
      | waits outcome => rw [outcome] at error; cases error
      | closes _ _ unreadable => exact unreadable
      | dispatches outcome => rw [outcome] at error; cases error
    | done readable whole =>
      have := isPrefix.length_le
      have some := List.length_pos_iff.2 arrives.1
      rw [length_append, whole] at this
      omega
    | other unreadable => exact unreadable

theorem onReadHttp_first (isPrefix : chunk <+: request.bytes) (arrives : Arrives .zero chunk)
    (limit : request.body.length ≤ setting.packageMaxLength - headerMaxSize) :
    (request.InOrder chunk ∧ Step setting request chunk.length (onReadHttp setting .zero chunk)) ∨
      (¬ request.InOrder chunk ∧ (onReadHttp setting .zero chunk).outcome = .error) := by
  have some := List.length_pos_iff.2 arrives.1
  have content : (⟨none, none, false, 0, 0, 0, 0, chunk, 0, headerMaxSize, false⟩ :
      Request).content = request.bytes.take chunk.length := List.prefix_iff_eq_take.1 isPrefix
  have start : onReadHttp setting .zero chunk =
      match getProtocol ⟨none, none, false, 0, 0, 0, 0, chunk, 0, headerMaxSize, false⟩ with
      | (.overread, filled) => tooFar filled
      | (.err, filled) =>
        if ¬ filled.excepted ∧ filled.content.length < headerMaxSize then ⟨filled, [], .ok⟩
        else closeFd filled
      | (.ok, filled) => receiveHeader setting filled := rfl
  have cut : (getProtocol ⟨none, none, false, 0, 0, 0, 0, chunk, 0, headerMaxSize, false⟩).1 =
      .overread → (onReadHttp setting .zero chunk).outcome = .error := by
    intro status
    rw [start, ← Prod.eta (getProtocol _), status]
    rfl
  by_cases method : request.method.name.length ≤ chunk.length
  · by_cases version : chunk.length ≤ request.front.length ∨ request.line.length ≤ chunk.length
    · refine .inl ⟨⟨method, version⟩, ?_⟩
      obtain ⟨filled, result, ⟨_, _, _, _, _, rfl⟩, offset⟩ :=
        getProtocol_ok content method version
      rw [start, result]
      exact receiveHeader_first content (by simp) offset isPrefix.length_le rfl arrives.2 limit
        rfl rfl
    · refine .inr ⟨fun inOrder => version inOrder.version, cut ?_⟩
      rw [not_or] at version
      exact getProtocol_version content (by omega) (by omega)
  · exact .inr ⟨fun inOrder => method inOrder.method,
      cut (getProtocol_method content some (by omega))⟩

theorem Waiting.unreadable (waiting : Waiting setting request state request.bytes.length)
    (limit : request.body.length ≤ setting.packageMaxLength - headerMaxSize) :
    ¬ request.Readable := by
  have uint := setting.isUint
  have total := request.length_bytes
  rcases waiting.stage with ⟨-, -, -, short⟩ | ⟨-, room, -, declared, -, -, short⟩
  · omega
  · intro readable
    have := (request.readable_iff room declared (by omega)).1 readable
    omega

theorem Progress.handed_iff {packages : List Dispatch}
    (progress : Progress setting request state request.bytes packages)
    (limit : request.body.length ≤ setting.packageMaxLength - headerMaxSize) :
    (∃ byStatic, packages = [⟨request.bytes, byStatic⟩]) ↔ request.Readable := by
  cases progress with
  | waiting waiting =>
    refine iff_of_false ?_ (waiting.unreadable limit)
    rintro ⟨byStatic, same⟩
    cases same
  | done readable _ byStatic => exact iff_of_true ⟨byStatic, rfl⟩ readable
  | other unreadable first packages differs =>
    refine iff_of_false ?_ unreadable
    rintro ⟨byStatic, same⟩
    exact differs (congrArg Dispatch.bytes (List.cons.inj same).1)

/-- **A request is handed over once and as it is, in whatever chunks it arrives, if and only if
the first receive ends neither inside the method nor inside the version, and the header can be
read.** -/
theorem dispatched_iff {chunks : List Bytes} {calls : Nat}
    (limit : request.body.length ≤ setting.packageMaxLength - headerMaxSize)
    (whole : chunks.flatten = request.bytes)
    (arrives : Admits (onReadHttp setting) Arrives chunks .zero) (enough : chunks.length ≤ calls) :
    request.Dispatched (run (onReadHttp setting) calls chunks .zero) ↔
      request.InOrder (chunks.headD []) ∧ request.Readable := by
  have some : chunks ≠ [] := by
    rintro rfl
    have := congrArg List.length whole
    rw [request.length_bytes, request.length_head, List.flatten_nil, length_nil] at this
    omega
  obtain ⟨chunk, chunks, rfl⟩ := exists_cons_of_ne_nil some
  obtain ⟨arrives, later⟩ := arrives
  have isPrefix : chunk <+: request.bytes := ⟨chunks.flatten, whole⟩
  rw [run_eq_feed enough, feed, List.headD_cons]
  rcases onReadHttp_first isPrefix arrives limit with ⟨inOrder, step⟩ | ⟨cut, error⟩
  · rw [and_iff_right inOrder]
    by_cases error : (onReadHttp setting .zero chunk).outcome = .error
    · rw [if_pos error]
      refine iff_of_false (fun dispatched => by cases dispatched.ok) ?_
      cases step with
      | waits outcome => rw [outcome] at error; cases error
      | closes _ _ unreadable => exact unreadable
      | dispatches outcome => rw [outcome] at error; cases error
    · rw [if_neg error]
      obtain ⟨held, closed⟩ := feed_spec (keeps_progress limit)
        (fun _ => step.progress isPrefix error) (later error)
      rw [List.flatten_cons] at whole
      cases ok : (feed (onReadHttp setting) chunks (onReadHttp setting .zero chunk).state).ok with
      | true =>
        have progress := held ok (whole ▸ List.prefix_rfl)
        rw [whole] at progress
        exact ⟨fun dispatched => (progress.handed_iff limit).1 dispatched.packages,
          fun readable => ⟨ok, (progress.handed_iff limit).2 readable⟩⟩
      | false =>
        obtain ⟨read, front, unreadable⟩ := closed ok
        refine iff_of_false (fun dispatched => ?_) (unreadable ?_)
        · rw [dispatched.ok] at ok
          cases ok
        · rw [← whole]
          exact List.prefix_append_right_inj _ |>.2 front.flatten
  · rw [if_pos error]
    exact iff_of_false (fun dispatched => by cases dispatched.ok) fun both => cut both.1

end

def plain : Setting := ⟨2097152, by decide, by decide, fun _ => false⟩

theorem each_of_all {p : UInt8 → Prop} [DecidablePred p] {bytes : Bytes}
    (all : bytes.all (fun byte => decide (p byte)) = true) : ∀ byte ∈ bytes, p byte :=
  fun byte isIn => of_decide_eq_true (List.all_eq_true.1 all byte isIn)

/-- `POST / HTTP/1.1` with a body of two bytes. -/
def post : HttpRequest where
  method := .post
  url := [47]
  version := .http11
  headers := [⟨[67, 111, 110, 116, 101, 110, 116, 45, 76, 101, 110, 103, 116, 104], [32, 50],
    ⟨by decide, each_of_all (by decide)⟩, each_of_all (by decide)⟩]
  body := [104, 105]
  isUrl := ⟨by decide, each_of_all (by decide)⟩
  isFramed := by
    intro header isIn _
    obtain rfl := List.mem_singleton.1 isIn
    exact ⟨[32], [50], [], rfl, ⟨by decide, each_of_all (by decide), by decide⟩,
      each_of_all (by decide)⟩
  hasLength := fun _ => ⟨_, List.mem_singleton_self _, by decide⟩

theorem dispatched_post : post.Dispatched (run (onReadHttp plain) 3
    [post.bytes.take 6, (post.bytes.drop 6).take 20, post.bytes.drop 26] .zero) := by
  refine (dispatched_iff (by decide) (by decide) ?_ (by decide)).2 ⟨⟨by decide, by decide⟩, ?_⟩
  · exact ⟨by decide, fun _ => ⟨by decide, fun _ => ⟨by decide, fun _ => trivial⟩⟩⟩
  · refine ⟨by decide, fun header found => .inl ?_⟩
    cases found
    decide

/-- The first chunk ends inside the version. -/
theorem not_dispatched_post :
    Admits (onReadHttp plain) Arrives [post.bytes.take 10, post.bytes.drop 10] .zero ∧
      [post.bytes.take 10, post.bytes.drop 10].flatten = post.bytes ∧
      ¬ post.Dispatched (run (onReadHttp plain) 2
        [post.bytes.take 10, post.bytes.drop 10] .zero) := by
  refine ⟨⟨by decide, fun noError => absurd ?_ noError⟩, by decide, fun dispatched => ?_⟩
  · decide
  · exact absurd dispatched.ok (by decide)

end PhpExts.Swoole.HttpProtocol
