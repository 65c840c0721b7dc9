import ZClone.Lib.ChainLog
import Mathlib.Data.List.Basic

/-!
# The recovery helper: records, names and checks

The data of `bin/zclone-recover.py`: chunk records, the session header, journal events and manifests, with the checks
and the object names computed from them. What the helper takes from the Python library (SHA-256, gzip and JSON) is
the structure `Python`, whose fields state the documented behaviour the helper relies on.
-/

namespace ZClone.Recover

open List

abbrev Bytes := List UInt8

/-- `BLOCK`: reads and hashes go in pieces of 1 MiB. -/
def BLOCK : Nat := 1024 * 1024

def VERSION : Int := 1

/-- What stops an invocation. A message is its fixed text followed by what it is `about` (a path or an offset);
`crash` is the process stopping where it is. -/
inductive Error
  | valueError (msg about : String)
  | osError (msg about : String)
  | fileExistsError (msg : String)
  | calledProcessError
  | keyError
  | crash
  deriving DecidableEq, Repr

/-- `except (OSError, ValueError)`: `FileExistsError` is an `OSError`, a failed subprocess is not. -/
def Error.isOSOrValueError : Error → Bool
  | .valueError _ _ | .osError _ _ | .fileExistsError _ => true
  | .calledProcessError | .keyError | .crash => false

/-! ## Records -/

/-- A chunk record, as `prepare` returns it and the journal and the manifest carry it. -/
structure Chunk where
  index : Int
  offset : Int
  length : Int
  raw_sha256 : String
  compressed_size : Int
  compressed_sha256 : String
  deriving DecidableEq, Repr

/-- What `identity` records of the source. A block device has no `ino`, `dev` and times. -/
structure Identity where
  path : String
  dev : Option Int
  ino : Option Int
  rdev : Int
  source_id : Option String
  size : Int
  mtime_ns : Option Int
  ctime_ns : Option Int
  deriving DecidableEq, Repr

structure Header where
  version : Int
  session : String
  source : Identity
  destination : String
  chunk_size : Int
  compression : String
  deriving DecidableEq, Repr

/-- The state of a chunk event; `other` is any other text. -/
inductive State
  | prepared
  | uploaded
  | verified
  | other (s : String)
  deriving DecidableEq, Repr

/-- `{'state': ..., 'chunk': ...}` -/
structure ChunkEvent where
  state : State
  chunk : Chunk
  deriving DecidableEq, Repr

/-- A journal event. `other` is a JSON value that is neither a header nor a chunk event. -/
inductive Event
  | header (h : Header)
  | chunk (e : ChunkEvent)
  | other (text : String)
  deriving DecidableEq, Repr

/-- A journal line: `{'event': ..., 'sha256': ...}`. -/
structure Row where
  event : Event
  sha256 : String
  deriving DecidableEq, Repr

structure Manifest where
  header : Header
  chunks : List Chunk
  deriving DecidableEq, Repr

/-! ## The Python library -/

/-- `len(value) != n or any(c not in '0123456789abcdef' for c in value)`, negated. -/
def isHex (n : Nat) (value : String) : Bool :=
  value.length == n && value.toList.all fun c => "0123456789abcdef".toList.contains c

/-- What reading a gzip stream to its end gives: the data, and whether the stream ended without an error. -/
structure Gunzip where
  data : Bytes
  clean : Bool
  deriving DecidableEq, Repr

/-- The Python library as the helper uses it. `encode` and `loads` are `json.dumps` with sorted keys and `json.loads`
at the three kinds of values the helper writes. -/
structure Python where
  /-- `hashlib.sha256(data).hexdigest()` -/
  sha256 : Bytes → String
  /-- the gzip file `prepare` makes of a range (`mtime=0`, level 6, no name) -/
  gzip : Bytes → Bytes
  /-- how much of it is written when this much of the range was fed -/
  gzipTell : Bytes → Nat
  gunzip : Bytes → Gunzip
  encodeEvent : Event → Bytes
  encodeRow : Row → Bytes
  loadsRow : Bytes → Option Row
  encodeManifest : Manifest → Bytes
  loadsManifest : Bytes → Option Manifest
  isHex_sha256 : ∀ data, isHex 64 (sha256 data) = true
  gzip_ne_nil : ∀ data, gzip data ≠ []
  gunzip_gzip : ∀ data, gunzip (gzip data) = ⟨data, true⟩
  loadsRow_encodeRow : ∀ r, loadsRow (encodeRow r ++ [10]) = some r
  newline_notMem_encodeRow : ∀ r, 10 ∉ encodeRow r
  loadsManifest_encodeManifest : ∀ m, loadsManifest (encodeManifest m) = some m

/-! ## Names -/

/-- `'{:012d}'.format(i)` -/
def format012d (i : Int) : String :=
  let digits := Nat.toDigits 10 i.natAbs
  if i < 0 then String.ofList ('-' :: (List.replicate (11 - digits.length) '0' ++ digits))
  else String.ofList (List.replicate (12 - digits.length) '0' ++ digits)

def chunkName (header : Header) (chunk : Chunk) : String :=
  "chunks/" ++ header.session ++ "-" ++ format012d chunk.index ++ "-" ++ chunk.compressed_sha256 ++ ".gz"

def manifestName (header : Header) : String := "manifests/" ++ header.session ++ ".json"

/-- The staged file of a chunk, in the staging directory. -/
def stagePath (header : Header) (index : Int) : String := header.session ++ "-" ++ format012d index ++ ".gz"

/-- `destination.rstrip('/')` -/
def rstripSlash (destination : String) : String :=
  String.ofList (destination.toList.reverse.dropWhile (· == '/')).reverse

def remotePath (destination name : String) : String :=
  rstripSlash destination ++ (if destination.toList.getLast? = some ':' then "" else "/") ++ name

theorem toList_format012d (i : Nat) : (format012d i).toList =
    replicate (12 - (Nat.toDigits 10 i).length) '0' ++ Nat.toDigits 10 i := by
  have h : ¬ ((i : Int) < 0) := by omega
  simp only [format012d, h, if_false, Int.natAbs_natCast, String.toList_ofList]

theorem dash_notMem_format012d (i : Nat) : '-' ∉ (format012d i).toList := by
  rw [toList_format012d, mem_append]
  rintro (h | h)
  · exact absurd (eq_of_mem_replicate h) (by decide)
  · exact absurd (Nat.isDigit_of_mem_toDigits (by decide) (by decide) h) (by decide)

theorem format012d_injective {i k : Nat} (h : format012d i = format012d k) : i = k := by
  have hval : ∀ n : Nat, Nat.ofDigitChars 10 (format012d n).toList 0 = n := fun n => by
    rw [toList_format012d, Nat.ofDigitChars_append, Nat.ofDigitChars_replicate_zero, Nat.mul_zero,
      Nat.ofDigitChars_ten_toDigits]
  rw [← hval i, ← hval k, h]

theorem remotePath_injective {destination a b : String} (h : remotePath destination a = remotePath destination b) :
    a = b := (String.append_right_inj _).1 h

/-- Chunks of one session with different indices have different names. -/
theorem chunkName_injective {header : Header} {a b : Chunk} {i k : Nat} (ha : a.index = i) (hb : b.index = k)
    (h : chunkName header a = chunkName header b) : i = k := by
  unfold chunkName at h
  rw [ha, hb] at h
  simp only [String.append_assoc, String.append_right_inj] at h
  -- both numbers end at the first dash
  have htake : ∀ (n : Nat) (rest : List Char),
      ((format012d n).toList ++ '-' :: rest).takeWhile (· ≠ '-') = (format012d n).toList := fun n rest => by
    rw [takeWhile_append_of_pos fun c hc => by
      have : c ≠ '-' := fun e => dash_notMem_format012d n (e ▸ hc)
      simpa using this]
    simp
  have hl := congrArg String.toList h
  simp only [String.toList_append] at hl
  have := congrArg (List.takeWhile (· ≠ '-')) hl
  rw [show "-".toList = ['-'] by decide, singleton_append, singleton_append, htake, htake] at this
  exact format012d_injective (String.toList_inj.1 this)

theorem manifestName_ne_chunkName (header : Header) (chunk : Chunk) : manifestName header ≠ chunkName header chunk := by
  intro h
  have hl := congrArg (fun s => s.toList.head?) h
  simp only [manifestName, chunkName, String.toList_append, String.append_assoc, head?_append] at hl
  rw [show "manifests/".toList.head? = some 'm' by decide, show "chunks/".toList.head? = some 'c' by decide] at hl
  simp at hl

/-! ## Checks -/

/-- `length + length // 100 + BLOCK` -/
def stagingLimit (length : Int) : Int := length + length / 100 + BLOCK

def validateChunk (chunk : Chunk) (index offset length : Int) : Except Error Unit :=
  if (chunk.index, chunk.offset, chunk.length) ≠ (index, offset, length) then
    .error (.valueError "invalid chunk layout" "")
  else if ¬(0 < chunk.compressed_size ∧ chunk.compressed_size ≤ stagingLimit length) then
    .error (.valueError "invalid compressed chunk size" "")
  else if ¬(isHex 64 chunk.raw_sha256 ∧ isHex 64 chunk.compressed_sha256) then
    .error (.valueError "invalid chunk checksum" "")
  else .ok ()

theorem validateChunk_eq_ok {chunk : Chunk} {index offset length : Int} :
    validateChunk chunk index offset length = .ok () ↔
      (chunk.index = index ∧ chunk.offset = offset ∧ chunk.length = length) ∧
        (0 < chunk.compressed_size ∧ chunk.compressed_size ≤ stagingLimit length) ∧
        isHex 64 chunk.raw_sha256 = true ∧ isHex 64 chunk.compressed_sha256 = true := by
  unfold validateChunk
  by_cases h1 : (chunk.index, chunk.offset, chunk.length) = (index, offset, length)
  · by_cases h2 : 0 < chunk.compressed_size ∧ chunk.compressed_size ≤ stagingLimit length
    · by_cases h3 : isHex 64 chunk.raw_sha256 = true ∧ isHex 64 chunk.compressed_sha256 = true
      · simp_all
      · simp_all
    · simp [h1, h2]
  · simp_all

/-! ## Reading objects -/

/-- What `zclone cat` delivers: the blocks read from its output, and whether it exits with 0. -/
structure ReadResult where
  blocks : List Bytes
  ok : Bool
  deriving DecidableEq, Repr

/-- The `consume` callbacks: the size is counted as the blocks arrive, and exceeding the limit stops the read. -/
def consume (limit : Int) (exceeded : Error) : Int → List Bytes → Except Error Unit
  | _, [] => .ok ()
  | size, data :: blocks =>
    if size + data.length > limit then .error exceeded else consume limit exceeded (size + data.length) blocks

/-- `Transport.read` with such a callback: the bytes delivered in all. -/
def readAll (limit : Int) (exceeded : Error) (remote : String) (r : ReadResult) : Except Error Bytes := do
  consume limit exceeded 0 r.blocks
  if r.ok then .ok r.blocks.flatten else .error (.osError "zclone could not read " remote)

variable {exceeded : Error}

theorem consume_eq_ok {limit : Int} : ∀ {size : Int} {blocks : List Bytes}, size ≤ limit →
    (consume limit exceeded size blocks = .ok () ↔ size + blocks.flatten.length ≤ limit)
  | size, [], h => by simpa [consume] using h
  | size, data :: blocks, h => by
    simp only [consume, flatten_cons, length_append, Int.natCast_add]
    split_ifs with hd
    · refine ⟨fun h => (by cases h), fun h => ?_⟩
      omega
    · rw [consume_eq_ok (by omega)]
      omega

variable {r : ReadResult} {L : Python} {remote : String} {data : Bytes}

theorem readAll_eq_ok {limit : Int} (h0 : 0 ≤ limit) : readAll limit exceeded remote r = .ok data ↔
      r.ok = true ∧ data = r.blocks.flatten ∧ (data.length : Int) ≤ limit := by
  have hc : consume limit exceeded 0 r.blocks = .ok () ↔ _ := consume_eq_ok h0
  unfold readAll
  cases hr : consume limit exceeded 0 r.blocks with
  | error e =>
    have : ¬ (0 + (r.blocks.flatten.length : Int) ≤ limit) := by rw [← hc, hr]; simp
    constructor
    · intro h; cases h
    · rintro ⟨-, rfl, h⟩; omega
  | ok u =>
    have hle := hc.1 hr
    cases hok : r.ok
    · simp [bind, Except.bind]
    · simp only [bind, Except.bind, if_true, Except.ok.injEq, true_and]
      constructor
      · rintro rfl; exact ⟨rfl, by omega⟩
      · rintro ⟨rfl, -⟩; rfl

/-- `verify`: the object has the recorded size and hash. -/
def verify (L : Python) (remote : String) (expected_size : Int) (expected_hash : String) (r : ReadResult) :
    Except Error Unit := do
  let data ← readAll expected_size (.valueError "remote object exceeds recorded size: " remote) remote r
  if (data.length : Int) ≠ expected_size ∨ L.sha256 data ≠ expected_hash then
    .error (.valueError "remote content verification failed: " remote)
  else .ok ()

/-- A verified object has the size and the hash. -/
theorem verify_ok {hash : String} {size : Nat} (h : verify L remote size hash r = .ok ()) :
    r.ok = true ∧ r.blocks.flatten.length = size ∧ L.sha256 r.blocks.flatten = hash := by
  unfold verify at h
  cases hr : readAll size (.valueError "remote object exceeds recorded size: " remote) remote r with
  | error e => rw [hr] at h; cases h
  | ok data =>
    obtain ⟨hok, rfl, -⟩ := (readAll_eq_ok (by omega)).1 hr
    rw [hr] at h
    simp only [bind, Except.bind] at h
    split_ifs at h with hne
    rw [not_or, not_not, not_not] at hne
    exact ⟨hok, by exact_mod_cast hne.1, hne.2⟩

theorem verify_of_eq (hok : r.ok = true)
    (hdata : r.blocks.flatten = data) : verify L remote data.length (L.sha256 data) r = .ok () := by
  have hr : readAll data.length (.valueError "remote object exceeds recorded size: " remote) remote r = .ok data :=
    (readAll_eq_ok (Int.natCast_nonneg data.length)).2 ⟨hok, hdata.symm, Int.le_refl _⟩
  unfold verify
  rw [hr]
  simp [bind, Except.bind]

/-- How a verification fails. -/
theorem verify_error {hash : String} {size : Int} {e : Error} (h : verify L remote size hash r = .error e) :
    e ∈ [Error.valueError "remote object exceeds recorded size: " remote, .osError "zclone could not read " remote,
      .valueError "remote content verification failed: " remote] := by
  have hconsume : ∀ (limit : Int) (x : Error) (blocks : List Bytes) (n : Int),
      consume limit x n blocks = .error e → e = x := by
    intro limit x blocks
    induction blocks with
    | nil => intro n h; cases h
    | cons b bs ih =>
      intro n h
      rw [consume] at h
      split_ifs at h
      · cases h; rfl
      · exact ih _ h
  unfold verify readAll at h
  simp only [bind, Except.bind] at h
  cases hc : consume size (.valueError "remote object exceeds recorded size: " remote) 0 r.blocks with rw [hc] at h
  | error x =>
    cases h
    rw [hconsume _ _ _ _ hc]
    simp
  | ok u =>
    split at h
    · rename_i hread
      split_ifs at hread
      cases hread
      cases h
      simp
    · split_ifs at h
      cases h
      simp

end ZClone.Recover
