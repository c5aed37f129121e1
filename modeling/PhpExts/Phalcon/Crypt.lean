import Mathlib

/-!
# `Phalcon\Crypt`

`encrypt` pads a text before it hands it to `openssl_encrypt`, and `decrypt` takes the padding
off again, both if the mode that is cut out of the name of the cipher is `cbc` or `ecb`. What
is cut out begins with the dash, so a name with a dash is never in such a mode.

Texts are padded and come back exactly for a name without a dash, and with signing only if
the digest of the text is that of the padded text (`pads_iff`).
-/

namespace PhpExts.Phalcon

open List (append_assoc reverse_append take_left drop_left)

abbrev Bytes := List UInt8

local instance lawfulBytes : LawfulBEq Bytes := inferInstance

/-! ## Functions of PHP and OpenSSL -/

/-- The functions that `Crypt` calls. A call of `openssl_decrypt` may fail. -/
structure CryptFunctions where
  cipherMethods : List Bytes
  cipherIvLength : Bytes → Nat
  encrypt : (data method key iv : Bytes) → Bytes
  decrypt : (data method key iv : Bytes) → Option Bytes
  hash : (algorithm data : Bytes) → Bytes
  hashHmac : (algorithm data key : Bytes) → Bytes
  looseEq : Bytes → Bytes → Bool

structure CryptFunctions.Lawful (php : CryptFunctions) : Prop where
  decrypt_encrypt : ∀ data method key iv,
    php.decrypt (php.encrypt data method key iv) method key iv = some data
  hashHmac_length : ∀ algorithm data key,
    (php.hashHmac algorithm data key).length = (php.hash algorithm []).length
  looseEq_refl : ∀ string, php.looseEq string string = true

/-- `tolower` of one byte. -/
def toLower (byte : UInt8) : UInt8 := if 65 ≤ byte ∧ byte ≤ 90 then byte + 32 else byte

/-- `strrpos` for one byte. -/
def strrpos (string : Bytes) (byte : UInt8) : Option Nat :=
  (string.reverse.findIdx? (· == byte)).map fun behind => string.length - 1 - behind

/-- `substr` without a length. -/
def substrFrom (string : Bytes) (start : Int) : Bytes :=
  if start < 0 then string.drop (string.length - start.natAbs) else string.drop start.toNat

/-- `str_ireplace` by the empty string; `skip` counts what is left of an occurrence. -/
def strIRemove (needle : Bytes) : Nat → Bytes → Bytes
  | _, [] => []
  | skip + 1, _ :: rest => strIRemove needle skip rest
  | 0, byte :: rest =>
    if (needle.map toLower).isPrefixOf ((byte :: rest).map toLower) then
      strIRemove needle (needle.length - 1) rest
    else byte :: strIRemove needle 0 rest

/-- `empty` of a string. -/
def isEmpty (string : Bytes) : Bool := string == [] || string == [48]

/-- The padding schemes, `PADDING_DEFAULT` first. -/
inductive Scheme where
  | default
  | ansiX923
  | pkcs7
  | iso10126
  | isoIec78164
  | zero
  | space
  deriving DecidableEq

inductive CryptException where
  | emptyEncryptionKey
  | emptyDecryptionKey
  | unsupportedCipher (cipher : Bytes)
  | bigBlockSize
  | invalidPaddingSize
  | mismatch
  deriving DecidableEq

def CryptException.message : CryptException → Bytes
  | .emptyEncryptionKey => "Encryption key cannot be empty".toUTF8.toList
  | .emptyDecryptionKey => "Decryption key cannot be empty".toUTF8.toList
  | .unsupportedCipher cipher =>
    "The cipher algorithm \"".toUTF8.toList ++ cipher ++
      "\" is not supported on this system.".toUTF8.toList
  | .bigBlockSize => "Block size is bigger than 256".toUTF8.toList
  | .invalidPaddingSize => "Invalid padding size".toUTF8.toList
  | .mismatch => "Hash does not match.".toUTF8.toList

/-- `Crypt`, as `setCipher` leaves it. -/
structure Crypt (php : CryptFunctions) where
  key : Bytes
  padding : Scheme
  cipher : Bytes
  ivLength : Nat
  hashAlgo : Bytes
  useSigning : Bool
  available : cipher ∈ php.cipherMethods
  ivLength_eq : ivLength = php.cipherIvLength cipher

/-- `"cbc"`. -/
def cbc : Bytes := [99, 98, 99]

/-- `"ecb"`. -/
def ecb : Bytes := [101, 99, 98]

/-- `"-"`. -/
def dash : UInt8 := 45

/-- `mode == "cbc" || mode == "ecb"`. -/
def isPadded (mode : Bytes) : Bool := mode == cbc || mode == ecb

/-- The padding of a scheme. The bytes of `rand` are those of the stream `random`. -/
def paddingBytes (scheme : Scheme) (paddingSize : Nat) (random : Nat → UInt8) : Bytes :=
  match scheme with
  | .default => []
  | .ansiX923 => List.replicate (paddingSize - 1) 0 ++ [UInt8.ofNat paddingSize]
  | .pkcs7 => List.replicate paddingSize (UInt8.ofNat paddingSize)
  | .iso10126 => (List.range (paddingSize - 1)).map random ++ [UInt8.ofNat paddingSize]
  | .isoIec78164 => 0x80 :: List.replicate (paddingSize - 1) 0
  | .zero => List.replicate paddingSize 0
  | .space => List.replicate paddingSize 32

/-- `Crypt::_cryptPadText`. A modulus of zero gives zero, with a warning. -/
def cryptPadText (text mode : Bytes) (blockSize : Nat) (scheme : Scheme) (random : Nat → UInt8) :
    Except CryptException Bytes :=
  if isPadded mode then
    let paddingSize := blockSize - text.length % blockSize
    if 256 ≤ paddingSize then .error .bigBlockSize
    else
      let paddingSize := if scheme = .default then 0 else paddingSize
      if paddingSize = 0 then .ok text
      else if blockSize < paddingSize then .error .invalidPaddingSize
      else .ok (text ++ (paddingBytes scheme paddingSize random).take paddingSize)
  else .ok text

def trailing (byte : UInt8) (blockSize : Nat) : Bytes → Nat → Nat
  | [], paddingSize => paddingSize
  | last :: before, paddingSize =>
    if last = byte ∧ paddingSize ≤ blockSize then trailing byte blockSize before (paddingSize + 1)
    else paddingSize

/-- The loop of `PADDING_ISO_IEC_7816_4`, from the end of the text, and the test behind it. The
first byte of the text is not taken for a zero. -/
def trailingIso (blockSize : Nat) : Bytes → Nat → Nat
  | [], _ => 0
  | last :: before, paddingSize =>
    if before ≠ [] ∧ last = 0 ∧ paddingSize < blockSize then
      trailingIso blockSize before (paddingSize + 1)
    else if last = 0x80 then paddingSize + 1
    else 0

/-- The size of the padding that `_cryptUnpadText` finds. -/
def foundPadding (php : CryptFunctions) (text : Bytes) (blockSize : Nat) (scheme : Scheme) : Nat :=
  let last := text.getLastD 0
  let ord := last.toNat
  let ifEqual := fun padding =>
    if ord ≤ blockSize then
      if php.looseEq (text.drop (text.length - ord)) padding then ord else 0
    else 0
  match scheme with
  | .default => 0
  | .ansiX923 => ifEqual (List.replicate (ord - 1) 0 ++ [last])
  | .pkcs7 => ifEqual (List.replicate ord last)
  | .iso10126 => ord
  | .isoIec78164 => trailingIso blockSize text.reverse 0
  | .zero => trailing 0 blockSize text.reverse 0
  | .space => trailing 32 blockSize text.reverse 0

def cryptUnpadText (php : CryptFunctions) (text mode : Bytes) (blockSize : Nat) (scheme : Scheme) :
    Bytes :=
  if text ≠ [] ∧ (blockSize = 0 ∨ text.length % blockSize = 0) ∧ isPadded mode then
    let paddingSize := foundPadding php text blockSize scheme
    if paddingSize ≠ 0 ∧ paddingSize ≤ blockSize then
      if paddingSize < text.length then text.take (text.length - paddingSize) else []
    else text
  else text

namespace Crypt

variable {php : CryptFunctions}

/-- `strtolower(substr(cipher, strrpos(cipher, "-") - strlen(cipher)))`; a position that was not
found counts as zero. -/
def mode (crypt : Crypt php) : Bytes :=
  (substrFrom crypt.cipher
    (((strrpos crypt.cipher dash).getD 0 : Nat) - (crypt.cipher.length : Int))).map toLower

/-- The block size, as `encrypt` and `decrypt` take it. -/
def blockSize (crypt : Crypt php) : Nat :=
  if 0 < crypt.ivLength then crypt.ivLength
  else php.cipherIvLength (strIRemove (dash :: crypt.mode) 0 crypt.cipher)

def keyInEffect (crypt : Crypt php) (key : Bytes) : Bytes := if isEmpty key then crypt.key else key

/-- The part of `Crypt::encrypt` before the call of `openssl_encrypt`: the text that is passed. -/
def padded (crypt : Crypt php) (text key : Bytes) (random : Nat → UInt8) :
    Except CryptException Bytes :=
  if isEmpty (crypt.keyInEffect key) then .error .emptyEncryptionKey
  else if crypt.cipher ∉ php.cipherMethods then .error (.unsupportedCipher crypt.cipher)
  else if crypt.padding ≠ .default ∧ isPadded crypt.mode then
    cryptPadText text crypt.mode crypt.blockSize crypt.padding random
  else .ok text

/-- `Crypt::encrypt`, with the bytes of `openssl_random_pseudo_bytes` as `iv`. -/
def encrypt (crypt : Crypt php) (text key iv : Bytes) (random : Nat → UInt8) :
    Except CryptException Bytes :=
  match crypt.padded text key random with
  | .error thrown => .error thrown
  | .ok padded =>
    let encrypted := php.encrypt padded crypt.cipher (crypt.keyInEffect key) iv
    if crypt.useSigning then
      let digest := php.hashHmac crypt.hashAlgo padded (crypt.keyInEffect key)
      .ok (iv ++ digest ++ encrypted)
    else .ok (iv ++ encrypted)

/-- `openssl_decrypt` and `_cryptUnpadText`; a failure is read as the empty string. -/
def opened (crypt : Crypt php) (ciphertext key iv : Bytes) : Bytes :=
  let decrypted := (php.decrypt ciphertext crypt.cipher (crypt.keyInEffect key) iv).getD []
  if isPadded crypt.mode then
    cryptUnpadText php decrypted crypt.mode crypt.blockSize crypt.padding
  else decrypted

def decrypt (crypt : Crypt php) (text key : Bytes) : Except CryptException Bytes :=
  if isEmpty (crypt.keyInEffect key) then .error .emptyDecryptionKey
  else if crypt.cipher ∉ php.cipherMethods then .error (.unsupportedCipher crypt.cipher)
  else
    let iv := text.take crypt.ivLength
    if crypt.useSigning then
      let hashLength := (php.hash crypt.hashAlgo []).length
      let hash := (text.drop crypt.ivLength).take hashLength
      let decrypted := crypt.opened (text.drop (crypt.ivLength + hashLength)) key iv
      if php.hashHmac crypt.hashAlgo decrypted (crypt.keyInEffect key) = hash then .ok decrypted
      else .error .mismatch
    else .ok (crypt.opened (text.drop crypt.ivLength) key iv)

end Crypt

/-! ## Padding and unpadding -/

def IsPadding (scheme : Scheme) (padding : Bytes) : Prop :=
  match scheme with
  | .default => padding = []
  | .ansiX923 =>
    padding = List.replicate (padding.length - 1) 0 ++ [UInt8.ofNat padding.length]
  | .pkcs7 => padding = List.replicate padding.length (UInt8.ofNat padding.length)
  | .iso10126 => padding.getLast? = some (UInt8.ofNat padding.length)
  | .isoIec78164 => padding = 0x80 :: List.replicate (padding.length - 1) 0
  | .zero => padding = List.replicate padding.length 0
  | .space => padding = List.replicate padding.length 32

def Unambiguous (scheme : Scheme) (text : Bytes) : Prop :=
  (scheme = .zero → text.getLast? ≠ some 0) ∧ (scheme = .space → text.getLast? ≠ some 32)

theorem paddingBytes_length {scheme : Scheme} (chosen : scheme ≠ .default) {size : Nat}
    (positive : 0 < size) (random : Nat → UInt8) :
    (paddingBytes scheme size random).length = size := by
  cases scheme with
  | default => exact absurd rfl chosen
  | ansiX923 | iso10126 | isoIec78164 =>
    simp [paddingBytes]
    omega
  | pkcs7 | zero | space => simp [paddingBytes]

theorem isPadding_paddingBytes {scheme : Scheme} (chosen : scheme ≠ .default) {size : Nat}
    (positive : 0 < size) (random : Nat → UInt8) :
    IsPadding scheme (paddingBytes scheme size random) := by
  have length := paddingBytes_length chosen positive random
  cases scheme with
  | default => exact absurd rfl chosen
  | ansiX923 | pkcs7 | isoIec78164 | zero | space =>
    unfold IsPadding
    rw [length]
    rfl
  | iso10126 =>
    unfold IsPadding
    rw [length]
    simp [paddingBytes]

theorem trailing_replicate {byte : UInt8} {text : Bytes} (apart : text.getLast? ≠ some byte)
    {blockSize size : Nat} (count done : Nat) (fits : done + count = size)
    (small : size ≤ blockSize) :
    trailing byte blockSize (List.replicate count byte ++ text.reverse) done = size := by
  induction count generalizing done with
  | zero =>
    cases ends : text.reverse with
    | nil => simpa [trailing] using fits
    | cons last before =>
      have isLast : text.getLast? = some last := by
        rw [← List.head?_reverse, ends]
        rfl
      have other : last ≠ byte := by
        rintro rfl
        exact apart isLast
      simpa [trailing, other] using fits
  | succ count ih =>
    rw [List.replicate_succ, List.cons_append, trailing, if_pos ⟨rfl, by omega⟩]
    exact ih (done + 1) (by omega)

theorem trailingIso_replicate {text : Bytes} {blockSize size : Nat} (count done : Nat)
    (fits : done + count + 1 = size) (small : size ≤ blockSize) :
    trailingIso blockSize (List.replicate count 0 ++ 0x80 :: text.reverse) done = size := by
  induction count generalizing done with
  | zero => simpa [trailingIso] using fits
  | succ count ih =>
    rw [List.replicate_succ, List.cons_append, trailingIso,
      if_pos ⟨by simp, rfl, by omega⟩]
    exact ih (done + 1) (by omega)

theorem foundPadding_append {php : CryptFunctions}
    (looseEq_refl : ∀ string, php.looseEq string string = true) {scheme : Scheme} (chosen : scheme ≠ .default) {blockSize size : Nat} (positive : 0 < size)
    (small : size ≤ blockSize) (byte : size < 256) {text : Bytes}
    (apart : Unambiguous scheme text) (random : Nat → UInt8) :
    foundPadding php (text ++ paddingBytes scheme size random) blockSize scheme = size := by
  have toNat : (UInt8.ofNat size).toNat = size := by
    simpa [UInt8.toNat_ofNat'] using byte
  have length := paddingBytes_length chosen positive random
  have behind : (text ++ paddingBytes scheme size random).drop
      ((text ++ paddingBytes scheme size random).length - size) =
        paddingBytes scheme size random := by
    simp [length]
  cases scheme with
  | default => exact absurd rfl chosen
  | ansiX923 =>
    have last : (text ++ paddingBytes .ansiX923 size random).getLastD 0 = UInt8.ofNat size := by
      simp [paddingBytes, ← append_assoc]
    simp only [foundPadding, last, toNat, behind, if_pos small]
    simp [paddingBytes, looseEq_refl]
  | pkcs7 =>
    have last : (text ++ paddingBytes .pkcs7 size random).getLastD 0 = UInt8.ofNat size := by
      obtain ⟨before, rfl⟩ := Nat.exists_eq_succ_of_ne_zero (Nat.pos_iff_ne_zero.mp positive)
      simp [paddingBytes, List.replicate_succ', ← append_assoc]
    simp only [foundPadding, last, toNat, behind, if_pos small]
    simp [paddingBytes, looseEq_refl]
  | iso10126 =>
    have last : (text ++ paddingBytes .iso10126 size random).getLastD 0 = UInt8.ofNat size := by
      simp [paddingBytes, ← append_assoc]
    simp only [foundPadding, last, toNat]
  | isoIec78164 =>
    simp only [foundPadding, paddingBytes, reverse_append, List.reverse_cons,
      List.reverse_replicate, append_assoc, List.singleton_append]
    exact trailingIso_replicate (size - 1) 0 (by omega) small
  | zero =>
    simp only [foundPadding, paddingBytes, reverse_append, List.reverse_replicate]
    exact trailing_replicate (apart.1 rfl) size 0 (by omega) small
  | space =>
    simp only [foundPadding, paddingBytes, reverse_append, List.reverse_replicate]
    exact trailing_replicate (apart.2 rfl) size 0 (by omega) small

theorem cryptUnpadText_append {php : CryptFunctions}
    (looseEq_refl : ∀ string, php.looseEq string string = true) {scheme : Scheme} (chosen : scheme ≠ .default) {blockSize size : Nat} (positive : 0 < size)
    (small : size ≤ blockSize) (byte : size < 256) {text mode : Bytes} (inMode : isPadded mode)
    (apart : Unambiguous scheme text) (random : Nat → UInt8)
    (whole : (text.length + size) % blockSize = 0) :
    cryptUnpadText php (text ++ paddingBytes scheme size random) mode blockSize scheme = text := by
  have length := paddingBytes_length chosen positive random
  have found := foundPadding_append looseEq_refl chosen positive small byte apart random
  have some_bytes : text ++ paddingBytes scheme size random ≠ [] := by
    intro none_left
    have := congrArg List.length none_left
    simp [length] at this
    omega
  have blocks : (text ++ paddingBytes scheme size random).length % blockSize = 0 := by
    simpa [length] using whole
  rw [cryptUnpadText, if_pos ⟨some_bytes, .inr blocks, inMode⟩]
  simp only [found]
  rw [if_pos ⟨by omega, small⟩]
  cases text with
  | nil => simp [length]
  | cons first rest =>
    have shorter : size < (first :: rest ++ paddingBytes scheme size random).length := by
      rw [List.length_append, length, List.length_cons]
      omega
    have front : (first :: rest ++ paddingBytes scheme size random).length - size =
        (first :: rest).length := by
      rw [List.length_append, length, Nat.add_sub_cancel]
    rw [if_pos shorter, front, take_left]

theorem size_of_padding {blockSize : Nat} (positive : 0 < blockSize) (length : Nat) :
    0 < blockSize - length % blockSize ∧ blockSize - length % blockSize ≤ blockSize ∧
      (length + (blockSize - length % blockSize)) % blockSize = 0 := by
  have below := Nat.mod_lt length positive
  refine ⟨by omega, by omega, ?_⟩
  have split := Nat.div_add_mod length blockSize
  have filled : length + (blockSize - length % blockSize) =
      blockSize * (length / blockSize + 1) := by
    rw [Nat.mul_add, Nat.mul_one]
    omega
  rw [filled, Nat.mul_mod_right]

theorem cryptPadText_eq {text mode : Bytes} {blockSize : Nat} {scheme : Scheme}
    (inMode : isPadded mode) (chosen : scheme ≠ .default) (positive : 0 < blockSize)
    (small : blockSize < 256) (random : Nat → UInt8) :
    cryptPadText text mode blockSize scheme random =
      .ok (text ++ paddingBytes scheme (blockSize - text.length % blockSize) random) := by
  obtain ⟨some_bytes, atMost, -⟩ := size_of_padding positive text.length
  have length := paddingBytes_length chosen some_bytes random
  simp only [cryptPadText, inMode, if_true, chosen, if_false]
  rw [if_neg (by omega), if_neg (by omega), if_neg (by omega), List.take_of_length_le (by omega)]

theorem cryptUnpadText_prefix (php : CryptFunctions) (text mode : Bytes) (blockSize : Nat)
    (scheme : Scheme) : ∃ removed, text = cryptUnpadText php text mode blockSize scheme ++ removed ∧
      removed.length ≤ blockSize := by
  have unchanged : ∃ removed, text = text ++ removed ∧ removed.length ≤ blockSize :=
    ⟨[], (List.append_nil text).symm, Nat.zero_le blockSize⟩
  rw [cryptUnpadText]
  split
  · simp only
    split
    · rename_i found
      split
      · refine ⟨text.drop (text.length - foundPadding php text blockSize scheme), ?_, ?_⟩
        · exact (List.take_append_drop _ text).symm
        · rw [List.length_drop]
          omega
      · refine ⟨text, rfl, ?_⟩
        omega
    · exact unchanged
  · exact unchanged

/-- Unpadding inverts padding, whatever bytes `rand` has given. A text that ends in the padding
byte is left out for the padding with zeros and with spaces. -/
theorem cryptUnpadText_cryptPadText {php : CryptFunctions}
    (looseEq_refl : ∀ string, php.looseEq string string = true) {mode : Bytes}
    (inMode : isPadded mode) {blockSize : Nat} (positive : 0 < blockSize)
    (small : blockSize < 256) :
    (∀ scheme, scheme ≠ .default → ∀ text, Unambiguous scheme text → ∀ random, ∃ padded,
      cryptPadText text mode blockSize scheme random = .ok padded ∧
        cryptUnpadText php padded mode blockSize scheme = text) ∧
    ∀ text scheme, ∃ removed, text = cryptUnpadText php text mode blockSize scheme ++ removed ∧
      removed.length ≤ blockSize := by
  refine ⟨fun scheme chosen text apart random => ?_,
    fun text scheme => cryptUnpadText_prefix php text mode blockSize scheme⟩
  obtain ⟨sizePositive, sizeSmall, whole⟩ := size_of_padding positive text.length
  exact ⟨_, cryptPadText_eq inMode chosen positive small random,
    cryptUnpadText_append looseEq_refl chosen sizePositive sizeSmall (by omega) inMode apart random
      whole⟩

def lastPart (cipher : Bytes) : Bytes := (cipher.reverse.takeWhile (· != dash)).reverse

theorem ne_dash_of_mem_reverse {part : Bytes} (absent : dash ∉ part) {byte : UInt8}
    (mem : byte ∈ part.reverse) : byte ≠ dash := by
  rintro rfl
  exact absent (List.mem_reverse.mp mem)

theorem strrpos_eq_none {cipher : Bytes} (absent : dash ∉ cipher) : strrpos cipher dash = none := by
  rw [strrpos, Option.map_eq_none_iff, List.findIdx?_eq_none_iff]
  intro byte mem
  simpa using ne_dash_of_mem_reverse absent mem

theorem strrpos_append {front behind : Bytes} (absent : dash ∉ behind) :
    strrpos (front ++ dash :: behind) dash = some front.length := by
  have found : (behind.reverse ++ dash :: front.reverse).findIdx? (· == dash) =
      some behind.length := by
    rw [List.findIdx?_append]
    have none_behind : behind.reverse.findIdx? (· == dash) = none :=
      Option.map_eq_none_iff.mp (strrpos_eq_none absent)
    rw [none_behind]
    simp [List.findIdx?_cons]
  simp only [strrpos, reverse_append, List.reverse_cons, append_assoc,
    List.singleton_append, found, Option.map_some, List.length_append, List.length_cons,
    Option.some.injEq]
  omega

theorem substrFrom_strrpos {cipher : Bytes} (present : dash ∈ cipher) : ∃ rest, substrFrom cipher
      (((strrpos cipher dash).getD 0 : Nat) - (cipher.length : Int)) = dash :: rest := by
  obtain ⟨front, behind, split, absent⟩ :=
    List.eq_append_cons_of_mem (List.mem_reverse.mpr present)
  have whole : cipher = behind.reverse ++ dash :: front.reverse := by
    rw [← List.reverse_reverse cipher, split]
    simp
  refine ⟨front.reverse, ?_⟩
  rw [whole, strrpos_append (fun mem => absent (List.mem_reverse.mp mem))]
  have start : ((behind.reverse.length : Nat) : Int) -
      ((behind.reverse ++ dash :: front.reverse).length : Int) < 0 := by
    simp
    omega
  have dropped : (behind.reverse ++ dash :: front.reverse).length -
      (((behind.reverse.length : Nat) : Int) -
        ((behind.reverse ++ dash :: front.reverse).length : Int)).natAbs =
      behind.reverse.length := by
    simp
    omega
  simp only [Option.getD_some, substrFrom, if_pos start, dropped, drop_left]

namespace Crypt

variable {php : CryptFunctions} {crypt : Crypt php}

theorem not_isPadded_of_dash (present : dash ∈ crypt.cipher) : isPadded crypt.mode = false := by
  obtain ⟨rest, cut⟩ := substrFrom_strrpos present
  have lower : toLower dash = dash := by decide
  have begins : crypt.mode = dash :: rest.map toLower := by
    rw [mode, cut, List.map_cons, lower]
  simp [isPadded, begins, cbc, ecb, dash]

theorem mode_of_no_dash (absent : dash ∉ crypt.cipher) : crypt.mode = crypt.cipher.map toLower := by
  rw [mode, strrpos_eq_none absent]
  cases crypt.cipher with
  | nil => rfl
  | cons first rest =>
    have start : ((0 : Nat) : Int) - ((first :: rest).length : Int) < 0 := by
      simp only [List.length_cons]
      omega
    have dropped : (first :: rest).length -
        (((0 : Nat) : Int) - ((first :: rest).length : Int)).natAbs = 0 := by
      omega
    simp only [Option.getD_none, substrFrom, if_pos start, dropped, List.drop_zero]

theorem isPadded_of_no_dash (absent : dash ∉ crypt.cipher)
    (last : isPadded ((lastPart crypt.cipher).map toLower)) : isPadded crypt.mode := by
  have whole : lastPart crypt.cipher = crypt.cipher := by
    rw [lastPart, List.takeWhile_eq_self_iff.mpr, List.reverse_reverse]
    intro byte mem
    simpa using ne_dash_of_mem_reverse absent mem
  rw [mode_of_no_dash absent]
  rwa [whole] at last

/-! ## The round trip -/

/-- The text is passed to `openssl_encrypt` with between one byte and a block of the padding of
the scheme, so that it fills whole blocks, and `decrypt` gives the text back. -/
def PadsAndReturns (crypt : Crypt php) (text key iv : Bytes) (random : Nat → UInt8) : Prop :=
  ∃ padding encrypted, IsPadding crypt.padding padding ∧
    1 ≤ padding.length ∧ padding.length ≤ crypt.blockSize ∧
    (text.length + padding.length) % crypt.blockSize = 0 ∧
    crypt.padded text key random = .ok (text ++ padding) ∧
    crypt.encrypt text key iv random = .ok encrypted ∧
    crypt.decrypt encrypted key = .ok text

/-- The name has no dash, there is a key, and a block, and the digest that signs the padded text
is that of the text. -/
structure Meets (crypt : Crypt php) (text key : Bytes) (random : Nat → UInt8) : Prop where
  noDash : dash ∉ crypt.cipher
  block : 0 < crypt.blockSize
  hasKey : isEmpty (crypt.keyInEffect key) = false
  signed : crypt.useSigning = true →
    php.hashHmac crypt.hashAlgo
        (text ++ paddingBytes crypt.padding
          (crypt.blockSize - text.length % crypt.blockSize) random) (crypt.keyInEffect key) =
      php.hashHmac crypt.hashAlgo text (crypt.keyInEffect key)

theorem padded_of_dash (present : dash ∈ crypt.cipher) {text key : Bytes} {random : Nat → UInt8}
    {padded : Bytes} (passed : crypt.padded text key random = .ok padded) : padded = text := by
  simp only [Crypt.padded, not_isPadded_of_dash present, crypt.available] at passed
  split at passed
  · cases passed
  · simpa using passed.symm

theorem key_of_padded {text key : Bytes} {random : Nat → UInt8} {padded : Bytes}
    (passed : crypt.padded text key random = .ok padded) :
    isEmpty (crypt.keyInEffect key) = false := by
  cases empty : isEmpty (crypt.keyInEffect key) with
  | false => rfl
  | true => simp [Crypt.padded, empty] at passed

theorem decrypt_encrypt (lawful : php.Lawful) {text key iv padded : Bytes}
    {random : Nat → UInt8} (ivBytes : iv.length = crypt.ivLength)
    (passed : crypt.padded text key random = .ok padded) :
    ∃ encrypted, crypt.encrypt text key iv random = .ok encrypted ∧ crypt.decrypt encrypted key =
        (let decrypted := if isPadded crypt.mode then
            cryptUnpadText php padded crypt.mode crypt.blockSize crypt.padding else padded
        if crypt.useSigning ∧ php.hashHmac crypt.hashAlgo decrypted (crypt.keyInEffect key) ≠
            php.hashHmac crypt.hashAlgo padded (crypt.keyInEffect key) then .error .mismatch
        else .ok decrypted) := by
  have hasKey := key_of_padded passed
  have drop_iv : ∀ rest : Bytes, (iv ++ rest).drop crypt.ivLength = rest := by
    intro rest
    rw [← ivBytes, drop_left]
  have take_iv : ∀ rest : Bytes, (iv ++ rest).take crypt.ivLength = iv := by
    intro rest
    rw [← ivBytes, take_left]
  cases signing : crypt.useSigning with
  | false =>
    refine ⟨iv ++ php.encrypt padded crypt.cipher (crypt.keyInEffect key) iv, ?_, ?_⟩
    · simp [encrypt, passed, signing]
    · simp [decrypt, hasKey, crypt.available, signing, drop_iv, take_iv, opened,
        lawful.decrypt_encrypt]
  | true =>
    refine ⟨iv ++ (php.hashHmac crypt.hashAlgo padded (crypt.keyInEffect key) ++
      php.encrypt padded crypt.cipher (crypt.keyInEffect key) iv), ?_, ?_⟩
    · simp [encrypt, passed, signing]
    · have digest := lawful.hashHmac_length crypt.hashAlgo padded (crypt.keyInEffect key)
      simp only [decrypt, hasKey, crypt.available, signing, take_iv, ← List.drop_drop, drop_iv,
        ← digest, take_left, drop_left, opened, lawful.decrypt_encrypt,
        Option.getD_some]
      simp only [Bool.false_eq_true, if_false, not_true_eq_false, if_true, true_and, ne_eq,
        ite_not]

/-- Texts are padded and come back exactly under the condition. -/
theorem pads_iff (lawful : php.Lawful) (crypt : Crypt php)
    (last : isPadded ((lastPart crypt.cipher).map toLower)) (small : crypt.blockSize < 256)
    (chosen : crypt.padding ≠ .default) {text : Bytes} (apart : Unambiguous crypt.padding text)
    (key : Bytes) {iv : Bytes} (ivBytes : iv.length = crypt.ivLength) (random : Nat → UInt8) :
    crypt.PadsAndReturns text key iv random ↔ crypt.Meets text key random := by
  constructor
  · rintro ⟨padding, encrypted, -, some_bytes, atMost, -, passed, result, returned⟩
    have absent : dash ∉ crypt.cipher := by
      intro present
      have same : text ++ padding = text := padded_of_dash present passed
      have empty : padding = [] := by simpa using same
      simp [empty] at some_bytes
    have inMode := isPadded_of_no_dash absent last
    have positive : 0 < crypt.blockSize := by omega
    obtain ⟨sizePositive, sizeSmall, whole⟩ := size_of_padding positive text.length
    refine ⟨absent, positive, key_of_padded passed, fun signing => ?_⟩
    have hasKey := key_of_padded passed
    have passes : crypt.padded text key random = .ok (text ++ paddingBytes crypt.padding
        (crypt.blockSize - text.length % crypt.blockSize) random) := by
      simp [Crypt.padded, hasKey, crypt.available, chosen, inMode,
        cryptPadText_eq inMode chosen positive small]
    obtain ⟨encrypted', result', opened⟩ := decrypt_encrypt lawful ivBytes passes
    obtain rfl : encrypted' = encrypted := by
      rw [result] at result'
      exact (Except.ok.inj result').symm
    rw [opened] at returned
    simp only [inMode, if_true, signing, true_and,
      cryptUnpadText_append lawful.looseEq_refl chosen sizePositive sizeSmall (by omega) inMode apart random
        whole] at returned
    by_contra different
    rw [if_pos (Ne.symm different)] at returned
    cases returned
  · intro meets
    have inMode := isPadded_of_no_dash meets.noDash last
    obtain ⟨sizePositive, sizeSmall, whole⟩ := size_of_padding meets.block text.length
    have passes : crypt.padded text key random = .ok (text ++ paddingBytes crypt.padding
        (crypt.blockSize - text.length % crypt.blockSize) random) := by
      simp [Crypt.padded, meets.hasKey, crypt.available, chosen, inMode,
        cryptPadText_eq inMode chosen meets.block small]
    obtain ⟨encrypted, result, opened⟩ := decrypt_encrypt lawful ivBytes passes
    have length := paddingBytes_length chosen sizePositive random
    refine ⟨_, encrypted, isPadding_paddingBytes chosen sizePositive random, by omega, by omega,
      by rw [length]; exact whole, passes, result, ?_⟩
    rw [opened]
    simp only [inMode, if_true,
      cryptUnpadText_append lawful.looseEq_refl chosen sizePositive sizeSmall (by omega) inMode apart random
        whole]
    rw [if_neg]
    rintro ⟨signing, different⟩
    exact different (meets.signed signing).symm

/-! ## A cipher with a dash -/

def samplePhp : CryptFunctions where
  cipherMethods := [[97, 101, 115, 45, 50, 53, 54, 45, 99, 98, 99]]
  cipherIvLength := fun _ => 16
  encrypt := fun data _ key _ => data.map (· ^^^ key.headD 0)
  decrypt := fun data _ key _ => some (data.map (· ^^^ key.headD 0))
  hash := fun _ _ => List.replicate 32 0
  hashHmac := fun _ data _ => List.replicate 32 (UInt8.ofNat data.length)
  looseEq := fun left right => left == right

theorem samplePhp_lawful : samplePhp.Lawful where
  decrypt_encrypt data method key iv := by
    have undo : ∀ byte mask : UInt8, byte ^^^ mask ^^^ mask = byte := by
      simp [UInt8.xor_assoc]
    simp [samplePhp, Function.comp_def, undo]
  hashHmac_length algorithm data key := by simp [samplePhp]
  looseEq_refl string := by simp [samplePhp]

theorem cryptUnpadText_cryptPadText_cbc :
    (∀ scheme, scheme ≠ .default → ∀ text, Unambiguous scheme text → ∀ random, ∃ padded,
      cryptPadText text cbc 16 scheme random = .ok padded ∧
        cryptUnpadText samplePhp padded cbc 16 scheme = text) ∧
    ∀ text scheme, ∃ removed, text = cryptUnpadText samplePhp text cbc 16 scheme ++ removed ∧
      removed.length ≤ 16 :=
  cryptUnpadText_cryptPadText samplePhp_lawful.looseEq_refl (by decide) (by decide) (by decide)

/-- `aes-256-cbc` with PKCS7 padding and signing. -/
def sample : Crypt samplePhp where
  key := []
  padding := .pkcs7
  cipher := [97, 101, 115, 45, 50, 53, 54, 45, 99, 98, 99]
  ivLength := 16
  hashAlgo := [115, 104, 97, 50, 53, 54]
  useSigning := true
  available := by decide
  ivLength_eq := rfl

theorem pads_iff_sample : sample.PadsAndReturns [116] [107] (List.replicate 16 0) (fun _ => 0) ↔
      sample.Meets [116] [107] (fun _ => 0) :=
  pads_iff samplePhp_lawful sample (by decide) (by decide) (by decide)
    ⟨by decide, by decide⟩ [107] (by decide) fun _ => 0

/-- The text is passed without padding. -/
theorem not_pads : sample.padded [116] [107] (fun _ => 0) = .ok [116] ∧
      ¬ sample.PadsAndReturns [116] [107] (List.replicate 16 0) (fun _ => 0) := by
  refine ⟨by rfl, ?_⟩
  rintro ⟨padding, encrypted, -, some_bytes, -, -, passed, -, -⟩
  have same : [116] ++ padding = [116] := padded_of_dash (by decide) passed
  have empty : padding = [] := by simpa using same
  simp [empty] at some_bytes

end Crypt

end PhpExts.Phalcon
