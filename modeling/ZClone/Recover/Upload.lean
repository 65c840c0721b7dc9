import ZClone.Lib.Prog
import ZClone.Recover.Journal
import ZClone.Recover.Replay

/-!
# Uploading

`upload` as a program over a `World`: the journal file, the staging directory, the remote objects and the version of
the source, of which `src v` is the `v`-th. Every call that leaves the process takes the next `Move` of the world, which
says what others did meanwhile (the source was written to, staged files were lost, remote objects changed) and how the
call goes: it is done, it fails, or the process stops there, in a journal write after any number of bytes.

Two fields of the world are not read by the program: `verified` are the objects whose content was read back and not
written since, which others leave alone, and `hashed` are the data whose SHA-256 was taken.
-/

namespace ZClone.Recover

open Lib

/-! ## The source -/

inductive FileKind
  | regular
  | block
  | other
  deriving DecidableEq, Repr

/-- The source at one time: what `os.fstat` says of it, and its bytes. -/
structure Source where
  kind : FileKind
  dev : Int
  ino : Int
  rdev : Int
  mtime_ns : Int
  ctime_ns : Int
  bytes : Bytes
  deriving DecidableEq, Repr

/-- The arguments. `source` is the resolved path, `journal_in_stage` is `journal_path.is_relative_to(stage)`. -/
structure Args where
  source : String
  destination : String
  journal_in_stage : Bool
  chunk_size : Int
  size : Option Int
  source_id : Option String
  retries : Int
  deriving DecidableEq, Repr

def identity (args : Args) (info : Source) : Except Error Identity :=
  match info.kind with
  | .regular =>
    if args.size.isSome ∧ args.size ≠ some (info.bytes.length : Int) then
      .error (.valueError "--size must match the regular file size" "")
    else if (info.bytes.length : Int) ≤ 0 then .error (.valueError "source size must be positive" "")
    else .ok { path := args.source, dev := some info.dev, ino := some info.ino, rdev := info.rdev,
               source_id := args.source_id, size := info.bytes.length, mtime_ns := some info.mtime_ns,
               ctime_ns := some info.ctime_ns }
  | .block =>
    match args.source_id, args.size with
    | some source_id, some size =>
      if source_id = "" then .error (.valueError "block devices require --source-id and an exact --size" "")
      else if (info.bytes.length : Int) ≠ size then
        .error (.valueError "--size does not match block device capacity" "")
      else if size ≤ 0 then .error (.valueError "source size must be positive" "")
      else .ok { path := args.source, dev := none, ino := none, rdev := info.rdev, source_id := args.source_id,
                 size := size, mtime_ns := none, ctime_ns := none }
    | _, _ => .error (.valueError "block devices require --source-id and an exact --size" "")
  | .other => .error (.valueError "source must be a regular file or block device, not a pipe" "")

theorem identity_size {args : Args} {info : Source} {id : Identity} (h : identity args info = .ok id) :
    id.size = info.bytes.length ∧ 0 < id.size := by
  unfold identity at h
  split at h
  · split_ifs at h
    cases h
    exact ⟨rfl, by dsimp only; omega⟩
  · split at h
    · split_ifs at h with h1 h2 h3
      cases h
      exact ⟨by simpa using (not_not.1 h2).symm, by dsimp only; omega⟩
    · cases h
  · cases h

/-! ## The world -/

/-- How a call goes. -/
inductive Outcome
  | done
  | fails (msg : String)
  | crashes
  deriving DecidableEq, Repr

/-- What `zclone copyto` leaves at the remote name. -/
inductive Copied
  | faithful
  | wrong (data : Bytes)
  | nothing
  deriving DecidableEq, Repr

/-- What happens at a call. -/
structure Move where
  /-- how often the source was changed before it -/
  changes : Nat
  /-- staged files that were lost or changed before it -/
  staged : List (String × Option Bytes)
  /-- remote objects that were written or removed before it -/
  objects : List (String × Option Bytes)
  outcome : Outcome
  /-- how much of a journal line is written if the call is not done -/
  written : Nat
  copied : Copied
  /-- how much `os.pread` returns at most, apart from one byte -/
  short : Nat
  /-- how the output of `zclone cat` is cut into blocks -/
  blocks : List Bytes
  /-- `uuid.uuid4().hex` -/
  uuid : { s : String // isHex 32 s = true }

structure World where
  journal : Bytes
  stage : String → Option Bytes
  remote : String → Option Bytes
  version : Nat
  verified : List String
  hashed : List Bytes
  moves : Nat → Move
  time : Nat

/-- A directory after changes by others. -/
def overlay (files : String → Option Bytes) (changes : List (String × Option Bytes)) : String → Option Bytes :=
  fun name => (changes.lookup name).getD (files name)

/-- What others do before a call. -/
def World.env (w : World) (m : Move) : World :=
  { w with
    stage := overlay w.stage m.staged
    remote := fun name => if name ∈ w.verified then w.remote name else overlay w.remote m.objects name
    version := w.version + m.changes
    time := w.time + 1 }

/-- A call that leaves the process. -/
def call {α : Type} (f : Move → World → Except Error α × World) : Prog World Error α := fun w =>
  f (w.moves w.time) (w.env (w.moves w.time))

/-- A call without effect unless it is done. -/
def attempt {α : Type} (f : Move → World → Except Error α × World) : Prog World Error α :=
  call fun m w =>
    match m.outcome with
    | .done => f m w
    | .fails msg => (.error (.osError msg ""), w)
    | .crashes => (.error .crash, w)

/-! ## Calls -/

section Calls

variable (L : Python) (src : Nat → Source)

/-- `Journal.__enter__` -/
def openJournal : Prog World Error Journal := attempt fun _ w =>
  match Journal.enter L w.journal with
  | .error e => (.error e, w)
  | .ok j => (.ok j, { w with journal := j.file })

/-- `Journal.append`. If the call is not done, a part of the line may be in the file. -/
def appendEvent (j : Journal) (event : Event) : Prog World Error Journal := call fun m w =>
  let line := Journal.line L j.digest event
  let stopped := { w with journal := w.journal ++ line.take m.written }
  match m.outcome with
  | .done => (.ok (j.append L event), { w with journal := w.journal ++ line })
  | .fails msg => (.error (.osError msg ""), stopped)
  | .crashes => (.error .crash, stopped)

def currentIdentity (args : Args) : Prog World Error Identity := attempt fun _ w =>
  (identity args (src w.version), w)

/-- `uuid.uuid4().hex` -/
def newSession : Prog World Error { s : String // isHex 32 s = true } := attempt fun m w => (.ok m.uuid, w)

/-- `os.pread(fd, n, offset)` for `0 < n` -/
def pread (n offset : Nat) : Prog World Error Bytes := attempt fun m w =>
  (.ok (((src w.version).bytes.drop offset).take (min n (m.short + 1))), w)

/-- The hashes of `data` are taken. -/
def World.hash (w : World) (data : List Bytes) : World := { w with hashed := data ++ w.hashed }

/-- `os.replace(temp_name, path)` with the complete staged file, whose hashes were taken. -/
def replaceStaged (path : String) (raw compressed : Bytes) : Prog World Error Unit := attempt fun _ w =>
  (.ok (), { w.hash [raw, compressed] with stage := Function.update w.stage path (some compressed) })

/-- `path.exists()` and then `hash_file(path)` -/
def hashStaged (path : String) : Prog World Error (Option (Int × String)) := attempt fun _ w =>
  match w.stage path with
  | none => (.ok none, w)
  | some data => (.ok (some (data.length, L.sha256 data)), w.hash [data])

/-- `path.unlink()`, where a missing file is no error -/
def unlinkStaged (path : String) : Prog World Error Unit := attempt fun _ w =>
  (.ok (), { w with stage := Function.update w.stage path none })

/-- `store.upload`: whatever its outcome, the object may be written, wrongly written or not written. -/
def uploadObject (content : World → Option Bytes) (remote : String) : Prog World Error Unit := call fun m w =>
  let object : Option Bytes :=
    match m.copied with
    | .faithful => content w
    | .wrong data => some data
    | .nothing => w.remote remote
  let w' := { w with
    remote := Function.update w.remote remote object
    verified := w.verified.filter (· ≠ remote) }
  match m.outcome with
  | .done => (.ok (), w')
  | .fails _ => (.error .calledProcessError, w')
  | .crashes => (.error .crash, w')

/-- What `zclone cat` delivers of an object. -/
def readObject (m : Move) (object : Option Bytes) : ReadResult :=
  match object with
  | none => ⟨[], false⟩
  | some data => ⟨if m.blocks.flatten = data then m.blocks else [data], m.outcome = .done⟩

/-- `verify` -/
def verifyObject (remote : String) (expected_size : Int) (expected_hash : String) : Prog World Error Unit :=
  call fun m w =>
    if m.outcome = .crashes then (.error .crash, w)
    else
      let w' := w.hash (w.remote remote).toList
      match verify L remote expected_size expected_hash (readObject m (w.remote remote)) with
      | .error e => (.error e, w')
      | .ok () => (.ok (), { w' with verified := remote :: w'.verified })

end Calls

/-! ## Preparing a chunk -/

section Upload

variable (L : Python) (src : Nat → Source)

/-- The reading loop of `prepare`, with `data` read so far; every round reads at least one byte, so that the first
argument, the number of rounds left, does not run out before the range is read. -/
def readRange (offset length : Int) : Nat → Bytes → Prog World Error Bytes
  | 0, data => pure data
  | rounds + 1, data =>
    if (data.length : Int) = length then pure data
    else do
      let block ← pread src (min BLOCK (length - data.length).toNat) (offset + data.length).toNat
      if block = [] then
        Prog.throw (.osError "unexpected end of source at offset " (toString (offset + data.length)))
      else if (L.gzipTell (data ++ block) : Int) > stagingLimit length then
        Prog.throw (.osError "compressed chunk exceeded staging limit" "")
      else readRange offset length rounds (data ++ block)

/-- The record of a chunk with these bytes. -/
def record (data : Bytes) (index offset length : Int) : Chunk where
  index := index
  offset := offset
  length := length
  raw_sha256 := L.sha256 data
  compressed_size := (L.gzip data).length
  compressed_sha256 := L.sha256 (L.gzip data)

def prepare (path : String) (index offset length : Int) : Prog World Error Chunk := do
  let data ← readRange L src offset length length.toNat []
  if ((L.gzip data).length : Int) > stagingLimit length then
    Prog.throw (.osError "compressed chunk exceeded staging limit" "")
  else do
    replaceStaged path data (L.gzip data)
    pure (record L data index offset length)

/-- `identity(...) != source_identity` stops with `msg`. -/
def checkIdentity (args : Args) (source_identity : Identity) (msg : String) : Prog World Error Unit := do
  let id ← currentIdentity src args
  if id ≠ source_identity then Prog.throw (.valueError msg "") else pure ()

/-! ## The chunk loop -/

/-- `needs_upload`: a chunk of an earlier invocation whose object is verified now is not uploaded again. -/
def needsUpload (reconcile : Bool) (remote : String) (chunk : Chunk) : Prog World Error Bool :=
  if reconcile then
    Prog.catchIf Error.isOSOrValueError
      (do
        verifyObject L remote chunk.compressed_size chunk.compressed_sha256
        pure false)
      (pure true)
  else pure true

/-- The event that the chunk is uploaded, once. -/
def recordUploaded (event : ChunkEvent) (journal : Journal) : Prog World Error Journal :=
  if event.state = .prepared then appendEvent L journal (.chunk ⟨.uploaded, event.chunk⟩) else pure journal

section

variable (args : Args) (source_identity : Identity)

/-- The staged file is as recorded, or is made again. -/
def ensureStaged (path : String) (index offset length : Int)
    (chunk : Chunk) : Prog World Error Unit := do
  let staged ← hashStaged L path
  if staged = some (chunk.compressed_size, chunk.compressed_sha256) then pure ()
  else do
    let regenerated ← prepare L src path index offset length
    let differs : Error :=
      .valueError "regenerated chunk differs from journal; refusing to replace recovered bytes" ""
    if regenerated ≠ chunk then Prog.throw differs
    else do
      let id ← currentIdentity src args
      if id ≠ source_identity then Prog.throw differs else pure ()

/-- The staged chunk is uploaded and verified. -/
def transfer (path remote : String) (index offset length : Int)
    (event : ChunkEvent) (journal : Journal) : Prog World Error Journal := do
  ensureStaged L src args source_identity path index offset length event.chunk
  uploadObject (fun w => w.stage path) remote
  let journal ← recordUploaded L event journal
  verifyObject L remote event.chunk.compressed_size event.chunk.compressed_sha256
  pure journal

/-- The event of a chunk and the journal with it: the recorded one, or that of a chunk prepared now. -/
def chunkEvent (path : String) (recorded : Option ChunkEvent)
    (index offset length : Int) (journal : Journal) : Prog World Error (Journal × ChunkEvent) :=
  match recorded with
  | some event => do
    Prog.ofExcept (validateChunk event.chunk index offset length)
    pure (journal, event)
  | none => do
    let chunk ← prepare L src path index offset length
    checkIdentity src args source_identity "source changed during staging"
    let journal ← appendEvent L journal (.chunk ⟨.prepared, chunk⟩)
    pure (journal, ⟨.prepared, chunk⟩)

end

/-- A chunk that is not verified yet: reconcile, or upload and verify, then record that it is verified. -/
def settle (args : Args) (header : Header) (source_identity : Identity) (path : String) (index offset length : Int)
    (reconcile : Bool) (event : ChunkEvent) (journal : Journal) : Prog World Error Journal := do
  let remote := remotePath args.destination (chunkName header event.chunk)
  let needs_upload ← needsUpload L reconcile remote event.chunk
  let journal ← (if needs_upload then transfer L src args source_identity path remote index offset length event journal
    else pure journal)
  appendEvent L journal (.chunk ⟨.verified, event.chunk⟩)

/-- One round of the chunk loop. -/
def uploadChunk (args : Args) (header : Header) (source_identity : Identity) (states : AList fun _ : Int => ChunkEvent)
    (progress : Journal × List Chunk) (range : Int × Int) : Prog World Error (Journal × List Chunk) := do
  let (journal, chunks) := progress
  let (index, offset) := range
  let length := min args.chunk_size (source_identity.size - offset)
  let path := stagePath header index
  let recorded := states.lookup index
  let (journal, event) ← chunkEvent L src args source_identity path recorded index offset length journal
  let journal ← (if event.state = .verified then pure journal
    else settle L src args header source_identity path index offset length recorded.isSome event journal)
  unlinkStaged path
  pure (journal, chunks ++ [event.chunk])

/-- `enumerate(range(0, total, chunk_size))` for a positive `chunk_size` -/
def ranges (total chunk_size : Int) : List (Int × Int) :=
  (List.range ((total + chunk_size - 1) / chunk_size).toNat).map fun i : Nat => ((i : Int), i * chunk_size)

/-! ## An invocation -/

/-- The header of the journal, written now if there is none. -/
def ensureHeader (args : Args) (source_identity : Identity) (journal : Journal) : Prog World Error Journal :=
  if journal.events = [] then do
    let session ← newSession
    appendEvent L journal (.header {
      version := VERSION, session := session, source := source_identity, destination := args.destination,
      chunk_size := args.chunk_size, compression := "gzip-level-6-mtime-0" })
  else pure journal

def settingsDiffer : Error := .valueError "source, destination or chunk settings differ from journal" ""

/-- `header = journal.events[0]` and its comparison with the arguments. An event that is no dictionary has no `get`,
and one without these keys differs. -/
def checkHeader (args : Args) (source_identity : Identity) (journal : Journal) : Except Error Header :=
  match journal.events.head? with
  | some (.header header) =>
    if (header.version, header.source, header.destination, header.chunk_size) ≠
        (VERSION, source_identity, args.destination, args.chunk_size) then .error settingsDiffer
    else .ok header
  | some (.chunk _) => .error settingsDiffer
  | some (.other _) | none => .error .keyError

/-- `upload` up to the manifest: all chunks are verified. -/
def uploadChunks (args : Args) : Prog World Error Manifest :=
  if args.chunk_size ≤ 0 ∨ args.retries ≤ 0 then
    Prog.throw (.valueError "chunk size and retries must be positive" "")
  else if args.journal_in_stage then
    Prog.throw (.valueError "journal must be outside the staging directory, on persistent storage" "")
  else do
    let journal ← openJournal L
    let source_identity ← currentIdentity src args
    let journal ← ensureHeader L args source_identity journal
    let header ← Prog.ofExcept (checkHeader args source_identity journal)
    let replayed ← Prog.ofExcept (replay journal.events.tail)
    let (_, chunks) ← (ranges source_identity.size args.chunk_size).foldlM
      (uploadChunk L src args header source_identity replayed.states) (journal, [])
    if replayed.states.keys.length > chunks.length then
      Prog.throw (.valueError "journal contains chunks beyond the source size" "")
    else do
      checkIdentity src args source_identity "source changed during upload"
      pure ⟨header, chunks⟩

/-- The manifest is uploaded and verified; the result is the path that is printed. -/
def publish (args : Args) (manifest : Manifest) : Prog World Error String :=
  let data := L.encodeManifest manifest
  if data.length > 64 * BLOCK then
    Prog.throw (.valueError "manifest exceeds 64 MiB format limit; use larger chunks" "")
  else do
    let remote := remotePath args.destination (manifestName manifest.header)
    uploadObject (fun _ => some data) remote
    attempt fun _ w => (.ok (), w.hash [data])
    verifyObject L remote data.length (L.sha256 data)
    pure remote

def upload (args : Args) : Prog World Error String := do
  let manifest ← uploadChunks L src args
  publish L args manifest

end Upload

end ZClone.Recover
