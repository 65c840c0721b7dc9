import ZClone.Crypt.Nonce
import ZClone.Lib.Int64
import ZClone.Lib.Reader

/-!
# Encrypted streams (`backend/crypt/cipher.go`)

- `Cipher` has the secretbox of the data key; that opening undoes sealing is part of it.
- `Encrypter.read` and `Decrypter.read` are the two readers, `Decrypter.rangeSeek` and `calculateUnderlying` the seek.
- Buffers are lists of the bytes in use, so that `bufSize` is a length. The pool of buffers and `Close` are left out.
-/

namespace ZClone.Crypt

open Reader

/-- `"RCLONE\x00\x00"`. -/
def fileMagicBytes : List UInt8 := [0x52, 0x43, 0x4c, 0x4f, 0x4e, 0x45, 0x00, 0x00]

def fileMagicSize : Nat := 8

def fileHeaderSize : Nat := fileMagicSize + fileNonceSize

/-- `secretbox.Overhead`. -/
def blockHeaderSize : Nat := 16

def blockDataSize : Nat := 64 * 1024

def blockSize : Nat := blockHeaderSize + blockDataSize

inductive Err where
  | eof
  | encryptedFileTooShort
  | encryptedFileBadHeader
  | encryptedBadMagic
  | encryptedBadBlock
  | badSeek
  /-- Can't seek - not initialised with newDecrypterSeek. -/
  | notInitialised
  /-- Can only seek from the start. -/
  | notFromStart
  /-- Couldn't reopen file with offset and limit. -/
  | reopen (cause : Err)
  /-- Any other error of the underlying reader. -/
  | underlying (code : Nat)
  deriving DecidableEq

structure Cipher where
  sealBox : Nonce → List UInt8 → List UInt8
  openBox : Nonce → List UInt8 → Option (List UInt8)
  passBadBlocks : Bool
  length_sealBox : ∀ n data, (sealBox n data).length = blockHeaderSize + data.length
  openBox_sealBox : ∀ n data, openBox n (sealBox n data) = some data

/-- The reader under an encrypter or a decrypter. `rangeSeek` is there when it is a `RangeSeeker`. -/
structure Underlying (σ : Type) where
  read : Nat → σ → Answer σ UInt8 Err
  rangeSeek : σ → Option (Int → Int → Option Err × σ)
  /-- How many empty answers in a row `readFill` takes; the source has no bound. -/
  patience : Nat

variable {σ : Type}

def Underlying.readFill (u : Underlying σ) (len : Nat) (s : σ) : Answer σ UInt8 Err :=
  Reader.readFill u.read u.patience len s

/-! ## Encrypting -/

structure Encrypter (σ : Type) where
  input : σ
  nonce : Nonce
  buf : List UInt8
  bufIndex : Nat
  err : Option Err

/-- `newEncrypter` with a given nonce. -/
def newEncrypter (input : σ) (nonce : Nonce) : Encrypter σ := ⟨input, nonce, fileMagicBytes ++ nonce.bytes, 0, none⟩

namespace Encrypter

/-- The end of `Read`: a copy out of the buffer. -/
def copyOut (len : Nat) (fh : Encrypter σ) : Answer (Encrypter σ) UInt8 Err :=
  let out := (fh.buf.drop fh.bufIndex).take len
  ⟨out, none, { fh with bufIndex := fh.bufIndex + out.length }⟩

def read (c : Cipher) (u : Underlying σ) (len : Nat) (fh : Encrypter σ) : Answer (Encrypter σ) UInt8 Err :=
  match fh.err with
  | some e => ⟨[], some e, fh⟩
  | none =>
    if fh.buf.length ≤ fh.bufIndex then
      let r := u.readFill blockDataSize fh.input
      if r.bytes = [] then ⟨[], r.err, { fh with input := r.state, err := r.err }⟩
      else
        -- an error that came with data comes again with the next call
        copyOut len
          { fh with input := r.state, buf := c.sealBox fh.nonce r.bytes, bufIndex := 0, nonce := fh.nonce.increment }
    else copyOut len fh

end Encrypter

/-! ## Decrypting -/

/-- `fromBuf`; the source panics at a buffer that is too short. -/
def Nonce.fromBuf (buf : List UInt8) : Nonce :=
  ⟨(buf ++ List.replicate fileNonceSize 0).take fileNonceSize, by simp⟩

structure Decrypter (σ : Type) where
  rc : σ
  nonce : Nonce
  initialNonce : Nonce
  buf : List UInt8
  bufIndex : Nat
  err : Option Err
  /-- Limit of bytes to read, -1 for unlimited. -/
  limit : Int
  reopen : Option (Int → Int → Except Err σ)

/-- An error to report: not the end, which comes again with the next call. -/
def pending (err : Option Err) : Option Err := if err = some .eof then none else err

def newDecrypter (u : Underlying σ) (rc : σ) : Except Err (Decrypter σ) :=
  let r := u.readFill fileHeaderSize rc
  if r.bytes.length < fileHeaderSize ∧ r.err = some .eof then .error .encryptedFileTooShort
  else
    match pending r.err with
    | some e => .error e
    | none =>
      if r.bytes.take fileMagicSize ≠ fileMagicBytes then .error .encryptedBadMagic
      else
        let nonce := Nonce.fromBuf (r.bytes.drop fileMagicSize)
        .ok ⟨r.state, nonce, nonce, [], 0, none, -1, none⟩

namespace Decrypter

def finish (fh : Decrypter σ) (err : Err) : Err × Decrypter σ :=
  match fh.err with
  | some e => (e, fh)
  | none => (err, { fh with err := some err })

def unFinish (fh : Decrypter σ) : Decrypter σ := { fh with err := none, buf := [], bufIndex := 0 }

def fillBuffer (c : Cipher) (u : Underlying σ) (fh : Decrypter σ) : Option Err × Decrypter σ :=
  let r := u.readFill blockSize fh.rc
  let fh := { fh with rc := r.state }
  if r.bytes = [] then (r.err, fh)
  -- Check header + 1 byte exists
  else if r.bytes.length ≤ blockHeaderSize then (some ((pending r.err).getD .encryptedFileBadHeader), fh)
  else
    match c.openBox fh.nonce r.bytes with
    | some data => (none, { fh with buf := data, bufIndex := 0, nonce := fh.nonce.increment })
    | none =>
      match pending r.err with
      | some e => (some e, fh)
      | none =>
        if c.passBadBlocks then
          -- Zero out the bad block and continue
          (none, { fh with
            buf := List.replicate (r.bytes.length - blockHeaderSize) 0, bufIndex := 0, nonce := fh.nonce.increment })
        else (some .encryptedBadBlock, fh)

/-- The end of `Read`: a copy out of the buffer, up to the limit. -/
def copyOut (len : Nat) (fh : Decrypter σ) : Answer (Decrypter σ) UInt8 Err :=
  let size := fh.buf.length - fh.bufIndex
  let toCopy := if 0 ≤ fh.limit ∧ fh.limit < size then fh.limit.toNat else size
  let out := ((fh.buf.drop fh.bufIndex).take toCopy).take len
  let fh := { fh with bufIndex := fh.bufIndex + out.length }
  if 0 ≤ fh.limit then
    let fh := { fh with limit := fh.limit - out.length }
    if fh.limit = 0 then
      let f := fh.finish .eof
      ⟨out, some f.1, f.2⟩
    else ⟨out, none, fh⟩
  else ⟨out, none, fh⟩

def read (c : Cipher) (u : Underlying σ) (len : Nat) (fh : Decrypter σ) : Answer (Decrypter σ) UInt8 Err :=
  match fh.err with
  | some e => ⟨[], some e, fh⟩
  | none =>
    let filled := if fh.buf.length ≤ fh.bufIndex then fh.fillBuffer c u else (none, fh)
    match filled.1 with
    | some e =>
      let f := filled.2.finish e
      ⟨[], some f.1, f.2⟩
    | none => filled.2.copyOut len

end Decrypter

/-! ## Seeking -/

/-- The results of `calculateUnderlying`. -/
structure Place where
  underlyingOffset : Int
  underlyingLimit : Int
  discard : Int
  blocks : Int

def calculateUnderlying (offset limit : Int) : Place :=
  let blocks := offset.tdiv blockDataSize
  let discard := offset.tmod blockDataSize
  let underlyingOffset := int64 (fileHeaderSize + blocks * blockSize)
  if limit < 0 then ⟨underlyingOffset, -1, discard, blocks⟩
  else
    -- bytes to read beyond the first block
    let bytesToRead := int64 (limit - (blockDataSize - discard))
    let extraBlocksToRead :=
      if 0 < bytesToRead then
        -- If left over bytes must read another block
        bytesToRead.tdiv blockDataSize + if bytesToRead.tmod blockDataSize ≠ 0 then 1 else 0
      else 0
    ⟨underlyingOffset, int64 ((1 + extraBlocksToRead) * blockSize), discard, blocks⟩

namespace Decrypter

/-- Seek the underlying stream, or open it again there. -/
def moveTo (u : Underlying σ) (reopen : Int → Int → Except Err σ) (offset limit : Int) (fh : Decrypter σ) :
    Option Err × Decrypter σ :=
  match u.rangeSeek fh.rc with
  | some seek => ((seek offset limit).1, { fh with rc := (seek offset limit).2 })
  | none =>
    match reopen offset limit with
    | .error e => (some (.reopen e), fh)
    | .ok rc => (none, { fh with rc := rc })

/-- `RangeSeek` from the nonce on. -/
def seekTo (c : Cipher) (u : Underlying σ) (reopen : Int → Int → Except Err σ) (offset limit : Int) (fh : Decrypter σ) :
    Option Err × Decrypter σ :=
  let place := calculateUnderlying offset limit
  -- Move the nonce on the correct number of blocks from the start
  let fh := { fh with nonce := fh.initialNonce.add (UInt64.ofInt place.blocks) }
  let moved := fh.moveTo u reopen place.underlyingOffset place.underlyingLimit
  match moved.1 with
  | some e => moved.2.finish e |>.map some id
  | none =>
    let filled := moved.2.fillBuffer c u
    match filled.1 with
    | some e => filled.2.finish e |>.map some id
    | none =>
      if filled.2.buf.length < place.discard then filled.2.finish .badSeek |>.map some id
      else (none, { filled.2 with bufIndex := place.discard.toNat, limit := limit })

/-- `RangeSeek`: the error and the handle. The offset it returns is the one it is given. -/
def rangeSeek (c : Cipher) (u : Underlying σ) (offset : Int) (whence : Nat) (limit : Int) (fh : Decrypter σ) :
    Option Err × Decrypter σ :=
  match fh.reopen with
  | none => fh.finish .notInitialised |>.map some id
  | some reopen =>
    if whence ≠ 0 then fh.finish .notFromStart |>.map some id
    -- Reset error or return it if not EOF
    else if fh.err = some .eof then fh.unFinish.seekTo c u reopen offset limit
    else if fh.err ≠ none then (fh.err, fh)
    else fh.seekTo c u reopen offset limit

end Decrypter

def newDecrypterSeek (c : Cipher) (u : Underlying σ) (reopen : Int → Int → Except Err σ) (offset limit : Int) :
    Except Err (Decrypter σ) := do
  let rc ←
    if offset = 0 ∧ limit < 0 then reopen 0 (-1)
    else if offset = 0 then reopen 0 (int64 (fileHeaderSize + (calculateUnderlying offset limit).underlyingLimit))
    -- Otherwise just read the header to start with
    else reopen 0 fileHeaderSize
  let fh ← newDecrypter u rc
  let fh := { fh with reopen := some reopen }
  if offset = 0 then
    return if limit < 0 then fh else { fh with limit := limit }
  else
    match fh.rangeSeek c u offset 0 limit with
    | (some e, _) => throw e
    | (none, fh) => return fh

end ZClone.Crypt
