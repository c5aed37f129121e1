import PhpExts.Swoole.MysqlBounds

/-!
# The greeting of a MySQL server and the reply to it

`mysql_handshake` with every byte it reads of what has been received and every byte it writes to
the auth data and to the buffer of the connector. The packet announces its own length, which is
looked at before the length itself has to be there, and what follows is read without a look at
either length. The function stays inside exactly if the greeting has all its parts, its auth data
has at most 21 bytes and the names are short enough for the reply (`handshake_right_iff`).
-/

namespace PhpExts.Swoole.Mysql

open PhpExts.Zend
open Serialize (leNat leBytes leBytes_length)
open List (length_take length_drop)

structure Block (size : Nat) where
  bytes : Bytes
  size_eq : bytes.length = size

namespace Block

variable {size : Nat}

def zero (size : Nat) : Block size := ⟨List.replicate size 0, List.length_replicate⟩

/-- The array after a `memcpy` to a place in it. -/
def written (block : Block size) (i : Nat) (bytes : Bytes) (inside : i + bytes.length ≤ size) :
    Block size where
  bytes := block.bytes.take i ++ bytes ++ block.bytes.drop (i + bytes.length)
  size_eq := by
    have whole := block.size_eq
    simp only [List.length_append, length_take, length_drop]
    omega

def write (block : Block size) (i : Nat) (bytes : Bytes) : Except Fault (Block size) :=
  if inside : i + bytes.length ≤ size then .ok (block.written i bytes inside)
  else .error .outside

end Block

/-- `strlen` of a string that starts somewhere in the received bytes. -/
def strlenAt (buf : Bytes) (i : Nat) : Except Fault Nat :=
  match (buf.drop i).findIdx? (· = 0) with
  | none => .error .outside
  | some length => .ok length

/-! ## The handshake -/

/-- `mysql_handshake_request`; strings are given by the place where they start. -/
structure HandshakeRequest where
  packetLength : Nat
  packetNumber : UInt8
  protocolVersion : UInt8
  serverVersion : Nat
  connectionId : Nat
  authPluginData : Block 21
  lAuthPluginData : UInt8
  filler : UInt8
  capabilityFlags : Nat
  characterSet : UInt8
  statusFlags : Nat
  reserved : Bytes
  authPluginName : Option Nat
  lAuthPluginName : Nat

namespace HandshakeRequest

def secureConnection (request : HandshakeRequest) : Bool := request.capabilityFlags.testBit 15

def pluginAuth (request : HandshakeRequest) : Bool := request.capabilityFlags.testBit 19

def readAuthData (buf : Bytes) (tmp : Nat) (request : HandshakeRequest) :
    Except Fault (HandshakeRequest × Nat) :=
  if request.secureConnection then do
    let len := max 13 (request.lAuthPluginData.toNat - 8)
    let part ← readAt buf tmp len
    let data ← request.authPluginData.write 8 part
    .ok ({ request with authPluginData := data }, tmp + len)
  else .ok (request, tmp)

def readPluginName (buf : Bytes) (tmp : Nat) (request : HandshakeRequest) :
    Except Fault HandshakeRequest :=
  if request.pluginAuth then do
    let length ← strlenAt buf tmp
    .ok { request with
      authPluginName := some tmp
      lAuthPluginName := min length (buf.length - tmp) % 256 }
  else .ok request

def readExtension (buf : Bytes) (tmp : Nat) (request : HandshakeRequest) :
    Except Fault HandshakeRequest := do
  let characterSet ← byteAt buf tmp
  let statusFlags ← readAt buf (tmp + 1) 2
  let upper ← readAt buf (tmp + 3) 2
  let lAuthPluginData ← byteAt buf (tmp + 5)
  let reserved ← readAt buf (tmp + 6) 10
  let (request, tmp) ← readAuthData buf (tmp + 16)
    { request with
      characterSet := characterSet
      statusFlags := leNat statusFlags
      capabilityFlags := request.capabilityFlags + 2 ^ 16 * leNat upper
      lAuthPluginData := lAuthPluginData
      reserved := reserved }
  readPluginName buf tmp request

/-- A greeting that is not an error, from the version of the server on. -/
def read (buf : Bytes) (packetLength : Nat) (packetNumber protocolVersion : UInt8) :
    Except Fault HandshakeRequest := do
  let length ← strlenAt buf 5
  let tmp := 5 + (length + 1)
  let connectionId ← readAt buf tmp 4
  let part ← readAt buf (tmp + 4) 8
  let authPluginData ← (Block.zero 21).write 0 part
  let filler ← byteAt buf (tmp + 12)
  let lower ← readAt buf (tmp + 13) 2
  let request : HandshakeRequest :=
    { packetLength := packetLength
      packetNumber := packetNumber
      protocolVersion := protocolVersion
      serverVersion := 5
      connectionId := leNat connectionId
      authPluginData := authPluginData
      lAuthPluginData := 0
      filler := filler
      capabilityFlags := leNat lower
      characterSet := 0
      statusFlags := 0
      reserved := List.replicate 10 0
      authPluginName := none
      lAuthPluginName := 0 }
  -- `tmp - tmp < len`
  if 0 < buf.length then readExtension buf (tmp + 15) request else .ok request

end HandshakeRequest

/-- `mysql_connector`, of which the handshake uses these; `errorMsg` is a place in the received
bytes. -/
structure Connector where
  user : Bytes
  password : Bytes
  database : Bytes
  characterSet : UInt8
  packetLength : Nat
  buf : Block 512
  errorCode : Nat
  errorMsg : Option Nat
  errorLength : Nat

namespace Connector

variable (sha1 : Bytes → Block 20)

def authResponse (password : Bytes) (authPluginData : Block 21) : Bytes :=
  let hash0 := sha1 password
  let hash1 := sha1 hash0.bytes
  let hash2 := sha1 (authPluginData.bytes.take 20 ++ hash1.bytes)
  List.zipWith (· ^^^ ·) hash2.bytes hash0.bytes

def writeAuth (connector : Connector) (request : HandshakeRequest) (out : Block 512) (tmp : Nat) :
    Except Fault (Block 512 × Nat) :=
  if 0 < connector.password.length then do
    let out ← out.write tmp [20]
    let out ← out.write (tmp + 1) (authResponse sha1 connector.password request.authPluginData)
    .ok (out, tmp + 21)
  else do
    let out ← out.write tmp [0]
    .ok (out, tmp + 1)

/-- `memcpy` of a string, and the byte behind it. -/
def writeString (out : Block 512) (tmp : Nat) (bytes : Bytes) : Except Fault (Block 512) := do
  let out ← out.write tmp bytes
  out.write (tmp + bytes.length) [0]

def pluginName (buf : Bytes) (request : HandshakeRequest) : Except Fault Bytes :=
  match request.authPluginName with
  | none => .ok []
  | some tmp => readAt buf tmp request.lAuthPluginName

/-- The reply, in the buffer of the connector. -/
def reply (connector : Connector) (buf : Bytes) (request : HandshakeRequest) :
    Except Fault Connector := do
  let out ← connector.buf.write 4 (leBytes 4 (512 + 32768 + 8 + 2 ^ 19))
  let out ← out.write 8 (leBytes 4 300)
  let characterSet :=
    if connector.characterSet = 0 then request.characterSet else connector.characterSet
  let out ← out.write 12 [characterSet]
  let out ← writeString out 36 connector.user
  let (out, tmp) ← connector.writeAuth sha1 request out (36 + (connector.user.length + 1))
  let out ← writeString out tmp connector.database
  let tmp := tmp + (connector.database.length + 1)
  let name ← pluginName buf request
  let out ← writeString out tmp name
  let packetLength := tmp + (request.lAuthPluginName + 1) - 4
  let out ← out.write 0 (leBytes 3 packetLength)
  let out ← out.write 3 [1]
  .ok { connector with characterSet := characterSet, packetLength := packetLength, buf := out }

/-- `mysql_handshake`, with what it returns. -/
def mysqlHandshake (connector : Connector) (buf : Bytes) : Except Fault (Int × Connector) := do
  let header ← readAt buf 0 3
  let packetLength := leNat header
  if buf.length < packetLength + 4 then .ok (0, connector)
  else do
    let packetNumber ← byteAt buf 3
    let protocolVersion ← byteAt buf 4
    if protocolVersion = 0xff then do
      let errorCode ← readAt buf 5 2
      .ok (-1, { connector with
        errorCode := leNat errorCode
        errorMsg := some 7
        errorLength := (packetLength + 2 ^ 16 - 3) % 2 ^ 16 })
    else do
      let request ← HandshakeRequest.read buf packetLength packetNumber protocolVersion
      let connector ← connector.reply sha1 buf request
      .ok (1, connector)

end Connector

def Returns {α : Type} (result : Except Fault α) (post : α → Prop) : Prop :=
  ∃ value, result = .ok value ∧ post value

section

variable {α β : Type} {buf : Bytes} {i : Nat} {post : β → Prop}

theorem returns_ok (value : β) : Returns (.ok value) post ↔ post value :=
  ⟨fun ⟨_, isValue, holds⟩ => Except.ok.inj isValue ▸ holds, fun holds => ⟨value, rfl, holds⟩⟩

theorem not_returns_error (fault : Fault) : ¬ Returns (.error fault) post := by
  rintro ⟨value, isValue, -⟩
  cases isValue

theorem returns_bind (first : Except Fault α) (next : α → Except Fault β) :
    Returns (first >>= next) post ↔ Returns first fun value => Returns (next value) post := by
  cases first with
  | error fault => exact iff_of_false (not_returns_error fault) (not_returns_error fault)
  | ok value =>
    refine Iff.symm ?_
    exact returns_ok value

theorem returns_readAt (n : Nat) (post : Bytes → Prop) :
    Returns (readAt buf i n) post ↔ i + n ≤ buf.length ∧ post ((buf.drop i).take n) := by
  rw [readAt]
  by_cases inside : i + n ≤ buf.length
  · rw [if_pos inside, returns_ok, and_iff_right inside]
  · rw [if_neg inside]
    exact iff_of_false (not_returns_error _) fun both => inside both.1

theorem returns_byteAt (post : UInt8 → Prop) :
    Returns (byteAt buf i) post ↔ i < buf.length ∧ post (buf.getD i 0) := by
  rw [byteAt, List.getD_eq_getElem?_getD]
  by_cases inside : i < buf.length
  · rw [List.getElem?_eq_getElem inside, and_iff_right inside]
    exact returns_ok _
  · rw [List.getElem?_eq_none (Nat.not_lt.mp inside)]
    exact iff_of_false (not_returns_error _) fun both => inside both.1

theorem returns_strlenAt (post : Nat → Prop) :
    Returns (strlenAt buf i) post ↔ 0 ∈ buf.drop i ∧ post ((buf.drop i).findIdx (· = 0)) := by
  rw [strlenAt]
  cases found : (buf.drop i).findIdx? (· = 0) with
  | none =>
    refine iff_of_false (not_returns_error _) fun both => ?_
    have nonzero := List.findIdx?_eq_none_iff.mp found 0 both.1
    cases nonzero
  | some length =>
    obtain ⟨bound, index⟩ := List.findIdx?_eq_some_iff_findIdx_eq.mp found
    obtain ⟨byte, there, isZero⟩ := List.findIdx_lt_length.mp (index ▸ bound)
    rw [of_decide_eq_true isZero] at there
    rw [index, and_iff_right there]
    exact returns_ok length

theorem returns_write {size : Nat} (block : Block size) (bytes : Bytes) (post : Block size → Prop) :
    Returns (block.write i bytes) post ↔
      ∃ inside : i + bytes.length ≤ size, post (block.written i bytes inside) := by
  rw [Block.write]
  by_cases inside : i + bytes.length ≤ size
  · rw [dif_pos inside, returns_ok]
    exact ⟨fun holds => ⟨inside, holds⟩, fun ⟨_, holds⟩ => holds⟩
  · rw [dif_neg inside]
    exact iff_of_false (not_returns_error _) fun both => inside both.1

end

/-! ## What has to be there -/

/-- The packet that the header announces has been received. -/
def Complete (buf : Bytes) : Prop :=
  3 ≤ buf.length ∧ leNat (buf.take 3) + 4 ≤ buf.length

def greetedFlags (buf : Bytes) (tmp : Nat) : Nat :=
  leNat ((buf.drop (tmp + 13)).take 2) + 2 ^ 16 * leNat ((buf.drop (tmp + 18)).take 2)

def pluginNameAt (buf : Bytes) (tmp : Nat) : Nat :=
  if (greetedFlags buf tmp).testBit 15 then tmp + 44 else tmp + 31

def pluginNameLength (buf : Bytes) (tmp : Nat) : Nat :=
  if (greetedFlags buf tmp).testBit 19 then
    (buf.drop (pluginNameAt buf tmp)).findIdx (· = 0) % 256
  else 0

/-- A greeting has its parts behind the version of the server, no more than 21 bytes of auth data,
and names for which the reply has room. -/
structure Greets (connector : Connector) (buf : Bytes) (tmp : Nat) : Prop where
  extension : tmp + 31 ≤ buf.length
  authData : (greetedFlags buf tmp).testBit 15 = true →
    (buf.getD (tmp + 20) 0).toNat ≤ 21 ∧ tmp + 44 ≤ buf.length
  pluginName : (greetedFlags buf tmp).testBit 19 = true → 0 ∈ buf.drop (pluginNameAt buf tmp)
  reply : 36 + (connector.user.length + 1) + (if 0 < connector.password.length then 21 else 1) +
    (connector.database.length + 1) + (pluginNameLength buf tmp + 1) ≤ 512

/-- The length of the packet is there; and a packet that is complete has a version, and is an error
with a code or a greeting. -/
structure Regulated (connector : Connector) (buf : Bytes) : Prop where
  header : 3 ≤ buf.length
  version : Complete buf → 5 ≤ buf.length
  error : Complete buf → buf.getD 4 0 = 0xff → 7 ≤ buf.length
  greeting : Complete buf → buf.getD 4 0 ≠ 0xff →
    0 ∈ buf.drop 5 ∧ Greets connector buf (5 + ((buf.drop 5).findIdx (· = 0) + 1))

def NameInside (buf : Bytes) (request : HandshakeRequest) : Prop :=
  match request.authPluginName with
  | none => request.lAuthPluginName = 0
  | some tmp => tmp + request.lAuthPluginName ≤ buf.length

variable {sha1 : Bytes → Block 20} {connector : Connector} {buf : Bytes}
  {request : HandshakeRequest}

namespace Connector

theorem length_authResponse (password : Bytes) (authPluginData : Block 21) :
    (authResponse sha1 password authPluginData).length = 20 := by
  rw [authResponse, List.length_zipWith, Block.size_eq, Block.size_eq, Nat.min_self]

theorem returns_reply (inside : NameInside buf request) {post : Connector → Prop}
    (holds : ∀ connector, post connector) : Returns (connector.reply sha1 buf request) post ↔
      36 + (connector.user.length + 1) + (if 0 < connector.password.length then 21 else 1) +
        (connector.database.length + 1) + (request.lAuthPluginName + 1) ≤ 512 := by
  have named : ∃ name, pluginName buf request = .ok name ∧
      name.length = request.lAuthPluginName := by
    rw [pluginName]
    rw [NameInside] at inside
    cases at_ : request.authPluginName with
    | none =>
      rw [at_] at inside
      exact ⟨[], rfl, inside.symm⟩
    | some tmp =>
      rw [at_] at inside
      refine ⟨_, if_pos inside, ?_⟩
      rw [length_take, length_drop]
      omega
  obtain ⟨name, isName, length⟩ := named
  rw [reply, isName]
  by_cases password : 0 < connector.password.length
  · simp only [writeAuth, if_pos password, writeString, returns_bind, returns_ok, returns_write,
      leBytes_length, length_authResponse, length, List.length_singleton, exists_prop, holds,
      and_true]
    omega
  · simp only [writeAuth, if_neg password, writeString, returns_bind, returns_ok, returns_write,
      leBytes_length, length, List.length_singleton, exists_prop, holds, and_true]
    omega

end Connector

namespace HandshakeRequest

variable {tmp : Nat} {post : HandshakeRequest → Prop} {holds : Prop}

theorem returns_readPluginName {place : Nat} (at_ : place = pluginNameAt buf tmp)
    (flags : request.capabilityFlags = greetedFlags buf tmp)
    (noName : request.authPluginName = none ∧ request.lAuthPluginName = 0)
    (depends : ∀ request', NameInside buf request' →
      request'.lAuthPluginName = pluginNameLength buf tmp → (post request' ↔ holds)) :
    Returns (readPluginName buf place request) post ↔
      ((greetedFlags buf tmp).testBit 19 = true → 0 ∈ buf.drop place) ∧ holds := by
  rw [pluginNameLength, ← at_] at depends
  rw [readPluginName, pluginAuth, flags]
  by_cases plugin : (greetedFlags buf tmp).testBit 19 = true
  · rw [if_pos plugin] at depends ⊢
    rw [returns_bind, returns_strlenAt, returns_ok, imp_iff_right plugin]
    refine and_congr_right fun ends => depends _ ?_ ?_
    all_goals
      have inside : (buf.drop place).findIdx (· = 0) < (buf.drop place).length :=
        List.findIdx_lt_length.mpr ⟨0, ends, decide_eq_true rfl⟩
      rw [length_drop] at inside
    · have short := Nat.mod_le ((buf.drop place).findIdx (· = 0)) 256
      change place + min _ _ % 256 ≤ buf.length
      rw [Nat.min_eq_left (Nat.le_of_lt inside)]
      omega
    · change min _ _ % 256 = _
      rw [Nat.min_eq_left (Nat.le_of_lt inside)]
  · rw [if_neg plugin] at depends ⊢
    rw [returns_ok, and_iff_right (absurd · plugin)]
    refine depends request ?_ noName.2
    rw [NameInside, noName.1]
    exact noName.2

theorem returns_readAuthData (flags : request.capabilityFlags = greetedFlags buf tmp)
    (lAuthPluginData : request.lAuthPluginData = buf.getD (tmp + 20) 0)
    (noName : request.authPluginName = none ∧ request.lAuthPluginName = 0)
    (depends : ∀ request', NameInside buf request' →
      request'.lAuthPluginName = pluginNameLength buf tmp → (post request' ↔ holds)) :
    (Returns (readAuthData buf (tmp + 31) request) fun value =>
        Returns (readPluginName buf value.2 value.1) post) ↔
      ((greetedFlags buf tmp).testBit 15 = true →
          (buf.getD (tmp + 20) 0).toNat ≤ 21 ∧ tmp + 44 ≤ buf.length) ∧
        ((greetedFlags buf tmp).testBit 19 = true → 0 ∈ buf.drop (pluginNameAt buf tmp)) ∧
        holds := by
  have same : request.secureConnection = (greetedFlags buf tmp).testBit 15 := by
    rw [secureConnection, flags]
  rw [readAuthData]
  by_cases secure : request.secureConnection = true
  · have place : tmp + 44 = pluginNameAt buf tmp := by
      rw [pluginNameAt, ← same, if_pos secure]
    rw [if_pos secure, ← same, imp_iff_right secure, ← lAuthPluginData, ← place]
    simp only [returns_bind, returns_readAt, returns_write, returns_ok, length_take,
      length_drop]
    by_cases narrow : request.lAuthPluginData.toNat ≤ 21
    · have width : max 13 (request.lAuthPluginData.toNat - 8) = 13 := by omega
      simp only [width]
      rw [and_iff_right narrow]
      refine and_congr_right fun inside => ?_
      have named (data : Block 21) :
          Returns (readPluginName buf (tmp + 44) { request with authPluginData := data }) post ↔
            ((greetedFlags buf tmp).testBit 19 = true → 0 ∈ buf.drop (tmp + 44)) ∧ holds :=
        returns_readPluginName place flags noName depends
      constructor
      · rintro ⟨_, rest⟩
        exact (named _).mp rest
      · intro rest
        exact ⟨by omega, (named _).mpr rest⟩
    · refine iff_of_false ?_ fun both => narrow both.1.1
      rintro ⟨inside, room, -⟩
      omega
  · have place : tmp + 31 = pluginNameAt buf tmp := by
      rw [pluginNameAt, ← same, if_neg secure]
    rw [if_neg secure, ← same, and_iff_right (absurd · secure), returns_ok, ← place]
    exact returns_readPluginName place flags noName depends

theorem returns_read (packetLength : Nat) (packetNumber protocolVersion : UInt8)
    (behind : tmp = 5 + ((buf.drop 5).findIdx (· = 0) + 1))
    (depends : ∀ request, NameInside buf request →
      request.lAuthPluginName = pluginNameLength buf tmp → (post request ↔ holds)) :
    Returns (read buf packetLength packetNumber protocolVersion) post ↔
      0 ∈ buf.drop 5 ∧ tmp + 31 ≤ buf.length ∧ ((greetedFlags buf tmp).testBit 15 = true →
          (buf.getD (tmp + 20) 0).toNat ≤ 21 ∧ tmp + 44 ≤ buf.length) ∧
        ((greetedFlags buf tmp).testBit 19 = true → 0 ∈ buf.drop (pluginNameAt buf tmp)) ∧
        holds := by
  rw [read, returns_bind, returns_strlenAt, ← behind]
  refine and_congr_right fun ends => ?_
  have received : 0 < buf.length := by
    have inside := List.length_pos_of_mem ends
    rw [length_drop] at inside
    omega
  simp only [returns_bind, returns_readAt, returns_write, returns_byteAt, if_pos received,
    readExtension]
  constructor
  · rintro ⟨-, -, _, -, -, -, -, -, -, fits, rest⟩
    have fits : tmp + 31 ≤ buf.length := by omega
    exact ⟨fits, (returns_readAuthData rfl rfl ⟨rfl, rfl⟩ depends).mp rest⟩
  · rintro ⟨fits, rest⟩
    refine ⟨by omega, by omega, ?_, by omega, by omega, by omega, by omega, by omega, by omega,
      by omega, (returns_readAuthData rfl rfl ⟨rfl, rfl⟩ depends).mpr rest⟩
    rw [length_take, length_drop]
    omega

end HandshakeRequest

/-! ## The handshake stays inside -/

namespace Connector

def Handshaken (buf : Bytes) (result : Int × Connector) : Prop := result.1 = 0 ↔ ¬ Complete buf

theorem handshaken (complete : Complete buf) {ret : Int} (nonzero : ret ≠ 0) :
    Handshaken buf (ret, connector) :=
  iff_of_false nonzero (not_not_intro complete)

theorem replied (sha1 : Bytes → Block 20) (connector : Connector) (complete : Complete buf)
    {length : Nat} (request : HandshakeRequest) (inside : NameInside buf request)
    (named : request.lAuthPluginName = length) : (Returns (do
        let connector ← connector.reply sha1 buf request
        .ok ((1 : Int), connector)) (Handshaken buf)) ↔
      36 + (connector.user.length + 1) + (if 0 < connector.password.length then 21 else 1) +
        (connector.database.length + 1) + (length + 1) ≤ 512 := by
  rw [returns_bind, ← named]
  refine returns_reply inside fun connector => ?_
  exact (returns_ok _).mpr (handshaken complete (by decide))

/-- **`mysql_handshake` reads only what has been received, writes only to its arrays and returns 0
exactly for a packet that is not complete, if and only if the greeting and the names are
regulated.** -/
theorem handshake_right_iff (sha1 : Bytes → Block 20) (connector : Connector) (buf : Bytes) :
    Returns (connector.mysqlHandshake sha1 buf) (Handshaken buf) ↔ Regulated connector buf := by
  rw [mysqlHandshake, returns_bind, returns_readAt, List.drop_zero, Nat.zero_add]
  by_cases header : 3 ≤ buf.length
  · rw [and_iff_right header]
    by_cases short : buf.length < leNat (buf.take 3) + 4
    · have incomplete : ¬ Complete buf := fun complete => by
        have enough := complete.2
        omega
      rw [if_pos short, returns_ok]
      exact iff_of_true (iff_of_true rfl incomplete)
        ⟨header, (absurd · incomplete), (absurd · incomplete), (absurd · incomplete)⟩
    · have complete : Complete buf := ⟨header, Nat.not_lt.mp short⟩
      rw [if_neg short, returns_bind, returns_byteAt, returns_bind, returns_byteAt]
      by_cases error : buf.getD 4 0 = 0xff
      · rw [if_pos error, returns_bind, returns_readAt, returns_ok]
        constructor
        · rintro ⟨-, version, inside, -⟩
          exact ⟨header, fun _ => version, fun _ _ => inside, fun _ other => absurd error other⟩
        · intro regulated
          have inside := regulated.error complete error
          exact ⟨by omega, by omega, inside, handshaken complete (by decide)⟩
      · rw [if_neg error, returns_bind,
          HandshakeRequest.returns_read _ _ _ rfl (replied sha1 connector complete)]
        constructor
        · rintro ⟨-, version, ends, extension, authData, pluginName, reply⟩
          exact ⟨header, fun _ => version, fun _ isError => absurd isError error,
            fun _ _ => ⟨ends, extension, authData, pluginName, reply⟩⟩
        · intro regulated
          have version := regulated.version complete
          obtain ⟨ends, greets⟩ := regulated.greeting complete error
          exact ⟨by omega, version, ends, greets.extension, greets.authData, greets.pluginName,
            greets.reply⟩
  · refine iff_of_false (fun both => header both.1) fun regulated => header regulated.header

/-- A greeting with auth data of some length, all of which is there. -/
def greeting (lAuthPluginData : UInt8) : Bytes :=
  packet 0 ([10, 53, 0] ++ List.replicate 12 1 ++ [0, 0, 128, 33, 2, 0, 8, 0, lAuthPluginData] ++
    List.replicate 10 0 ++ List.replicate (max 13 (lAuthPluginData.toNat - 8)) 1 ++ [109, 0])

def nobody : Connector := ⟨[], [], [], 0, 0, .zero 512, 0, none, 0⟩

/-- With 22 bytes of auth data the copy of its second part goes beyond the 21 bytes of the array. -/
theorem not_handshake_right :
    ¬ ∀ sha1 connector buf, Returns (mysqlHandshake sha1 connector buf) (Handshaken buf) := by
  intro right
  obtain ⟨result, returned, -⟩ := right (fun _ => .zero 20) nobody (greeting 22)
  have outside : mysqlHandshake (fun _ => .zero 20) nobody (greeting 22) = .error .outside := by rfl
  rw [outside] at returned
  cases returned

example : Returns (mysqlHandshake (fun _ => .zero 20) nobody (greeting 21)) (·.1 = 1) :=
  ⟨_, rfl, rfl⟩

end Connector

end PhpExts.Swoole.Mysql
