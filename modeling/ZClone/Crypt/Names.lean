import ZClone.Crypt.Obfuscate
import ZClone.Version.Basic

/-!
# Encrypted names (`backend/crypt/cipher.go`, `backend/crypt/pkcs7/pkcs7.go`)

- `encryptSegment` and `decryptSegment` are for the segments of a path; `NameCipher` has the wide-block cipher EME and
  the encoding of its output that they use.
- `encryptFileName` and `decryptFileName` go over the segments of a path. The version of a file name stays in plain
  text.
-/

namespace ZClone.Crypt

open Utf8 Paths Version

def nameCipherBlockSize : Nat := 16

/-! ## Padding -/

/-- `pkcs7.Pad`. -/
def pad (n : Nat) (buf : List UInt8) : List UInt8 :=
  let padding := n - buf.length % n
  buf ++ List.replicate padding (.ofNat padding)

/-- `pkcs7.Unpad`. -/
def unpad (n : Nat) (buf : List UInt8) : Except NameErr (List UInt8) :=
  match buf.getLast? with
  | none => .error .paddingNotFound
  | some last =>
    let padding := last.toNat
    if buf.length % n ≠ 0 then .error .paddingNotAMultiple
    else if padding > n then .error .paddingTooLong
    else if padding = 0 then .error .paddingTooShort
    else if (buf.drop (buf.length - padding)).any (· ≠ last) then .error .paddingNotAllTheSame
    else .ok (buf.take (buf.length - padding))

/-! ## Encodings of names -/

/-- The interface `fileNameEncoding`. -/
structure FileNameEncoding where
  encodeToString : List UInt8 → Text
  decodeString : Text → Except NameErr (List UInt8)

def equalsSign : UInt8 := 0x3D

/-- A digit of `base32.HexEncoding`: 0 to 9 and A to V. -/
def isHexDigit (b : UInt8) : Bool := (0x30 ≤ b && b ≤ 0x39) || (0x41 ≤ b && b ≤ 0x56)

def upperByte (b : UInt8) : UInt8 := if 0x61 ≤ b ∧ b ≤ 0x7A then b - 0x20 else b

def lowerByte (b : UInt8) : UInt8 := if 0x41 ≤ b ∧ b ≤ 0x5A then b + 0x20 else b

/-- `base32.HexEncoding`, and upper and lower case of `strings`, which are tables beyond ASCII. -/
structure Base32 where
  encodeToString : List UInt8 → Text
  decodeString : Text → Option (List UInt8)
  toUpper : Text → Text
  toLower : Text → Text
  decode_encode : ∀ src, decodeString (encodeToString src) = some src
  encode_nil : encodeToString [] = []
  encode_digits : ∀ src, ∃ digits k, encodeToString src = digits ++ List.replicate k equalsSign ∧
    (∀ b ∈ digits, isHexDigit b = true) ∧ k < 8 ∧ (digits.length + k) % 8 = 0
  toUpper_ascii : ∀ {s : Text}, (∀ b ∈ s, b < 0x80) → toUpper s = s.map upperByte
  toLower_ascii : ∀ {s : Text}, (∀ b ∈ s, b < 0x80) → toLower s = s.map lowerByte

def caseInsensitiveBase32Encoding (lib : Base32) : FileNameEncoding where
  encodeToString src := lib.toLower ((lib.encodeToString src).rdropWhile (· = equalsSign))
  decodeString s :=
    if s.getLast? = some equalsSign then .error .badBase32Encoding
    else
      -- First figure out how many padding characters to add
      let equals := (s.length + 7) / 8 * 8 - s.length
      match lib.decodeString (lib.toUpper s ++ List.replicate equals equalsSign) with
      | none => .error .corruptInput
      | some src => .ok src

/-! ## Segments -/

inductive NameEncryptionMode where
  | off | standard | obfuscated
  deriving DecidableEq

/-- What EME can transform. It panics at anything else. -/
def EmeBlocks (data : List UInt8) : Prop := data ≠ [] ∧ data.length % nameCipherBlockSize = 0 ∧ data.length ≤ 2048

/-- The part of a `Cipher` that is for names: the transformation by EME with the name key and tweak is invertible. -/
structure NameCipher (τ : Type) where
  mode : NameEncryptionMode
  fileNameEnc : FileNameEncoding
  emeEncrypt : List UInt8 → List UInt8
  emeDecrypt : List UInt8 → List UInt8
  nameKey : List UInt8
  dirNameEncrypt : Bool
  encryptedSuffix : Text
  clock : Clock τ
  length_nameKey : nameKey.length = 32
  length_emeEncrypt : ∀ {data}, EmeBlocks data → (emeEncrypt data).length = data.length
  emeDecrypt_emeEncrypt : ∀ {data}, EmeBlocks data → emeDecrypt (emeEncrypt data) = data

namespace NameCipher

variable {τ : Type} (c : NameCipher τ)

def encryptSegment (plaintext : Text) : Text :=
  if plaintext = [] then []
  else c.fileNameEnc.encodeToString (c.emeEncrypt (pad nameCipherBlockSize plaintext))

def decryptSegment (ciphertext : Text) : Except NameErr Text := do
  if ciphertext = [] then return []
  let rawCiphertext ← c.fileNameEnc.decodeString ciphertext
  if rawCiphertext.length % nameCipherBlockSize ≠ 0 then throw .notAMultipleOfBlocksize
  -- not possible if decodeFilename() working correctly
  if rawCiphertext.length = 0 then throw .tooShortAfterDecode
  if rawCiphertext.length > 2048 then throw .tooLongAfterDecode
  unpad nameCipherBlockSize (c.emeDecrypt rawCiphertext)

/-- The choice of `encryptFileName`. -/
def hide (plaintext : Text) : Text :=
  if c.mode = .standard then c.encryptSegment plaintext else obfuscateSegment c.nameKey plaintext

/-- The choice of `decryptFileName`. -/
def reveal (ciphertext : Text) : Except NameErr Text :=
  if c.mode = .standard then c.decryptSegment ciphertext else deobfuscateSegment c.nameKey ciphertext

/-- Strip the version string off a file name, if it has one. -/
def strip (segment : Text) : Option (τ × Text) :=
  if matched segment then
    let (t, s) := remove c.clock segment
    -- version.Remove can fail, in which case it returns the segment
    if s ≠ segment then some (t, s) else none
  else none

/-- The loop of `encryptFileName` for one segment. -/
def encryptOne (stripVersion : Bool) (segment : Text) : Text :=
  match if stripVersion then c.strip segment else none with
  | some (t, s) => add c.clock (c.hide s) t
  | none => c.hide segment

/-- The loop of `decryptFileName` for one segment. -/
def decryptOne (stripVersion : Bool) (segment : Text) : Except NameErr Text :=
  match if stripVersion then c.strip segment else none with
  | some (t, s) => do return add c.clock (← c.reveal s) t
  | none => c.reveal segment

/-- Directory names are left intact if the user chose so. -/
def encryptDir (dir : Text) : Text := if c.dirNameEncrypt then c.encryptOne false dir else dir

def decryptDir (dir : Text) : Except NameErr Text := if c.dirNameEncrypt then c.decryptOne false dir else .ok dir

/-- All segments: the directories, and the last one, which may have a version. -/
def encryptSegments (stripVersion : Bool) : List Text → List Text
  | [] => []
  | [last] => [c.encryptOne stripVersion last]
  | dir :: rest => c.encryptDir dir :: encryptSegments stripVersion rest

def decryptSegments (stripVersion : Bool) : List Text → Except NameErr (List Text)
  | [] => return []
  | [last] => return [← c.decryptOne stripVersion last]
  | dir :: rest => do return (← c.decryptDir dir) :: (← decryptSegments stripVersion rest)

/-! ## Paths -/

section

variable (path : Text)

/-- `encryptFileName`. -/
def encryptPath (stripVersion : Bool) : Text := render (c.encryptSegments stripVersion (segments path))

/-- `decryptFileName`. -/
def decryptPath (stripVersion : Bool) : Except NameErr Text := do
  return render (← c.decryptSegments stripVersion (segments path))

def encryptFileName : Text :=
  if c.mode = .off then path ++ c.encryptedSuffix else c.encryptPath path true

def decryptFileName : Except NameErr Text :=
  if c.mode = .off then
    if path.length = c.encryptedSuffix.length ∨ ¬c.encryptedSuffix.isSuffixOf path then .error .notAnEncryptedFile
    else
      let decrypted := path.take (path.length - c.encryptedSuffix.length)
      if matched decrypted ∧ (remove c.clock decrypted).2 = [] then .error .notAnEncryptedFile
      -- Leave the version string on, if it was there
      else .ok decrypted
  else c.decryptPath path true

def encryptDirName : Text :=
  if c.mode = .off ∨ ¬c.dirNameEncrypt then path else c.encryptPath path false

/-- `DecryptDirName`: a name with a version in plain text is one of an older release. -/
def decryptDirName : Except NameErr Text :=
  if c.mode = .off ∨ ¬c.dirNameEncrypt then .ok path
  else
    match c.decryptPath path false with
    | .ok out => .ok out
    | .error e =>
      if matched (base path) then
        match c.decryptPath path true with
        | .ok out => .ok out
        | .error _ => .error e
      else .error e

end

end NameCipher

end ZClone.Crypt
