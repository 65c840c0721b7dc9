import ZClone.March.Join

/-!
# One directory of a march (`March.processJob`)

A job lists a source and a destination directory, matches the two listings, collects the jobs for the subdirectories to
descend into, and reports the listings' errors when the matching is over.

- `srcChan` and `dstChan` are what the listing goroutines send: with `NoTraverse` the destination channel carries one
  lookup for each source entry, nil entries included.
- `processJob` puts them together.
-/

namespace ZClone.March

structure ListDirJob where
  srcRemote : Name
  dstRemote : Name
  srcDepth : Int := 0
  dstDepth : Int := 0
  noSrc : Bool := false
  noDst : Bool := false
  deriving DecidableEq

/-- The errors of a listing; `dirNotFound` is `fs.ErrorDirNotFound`. -/
inductive ListError where
  | dirNotFound
  | other (msg : String)
  deriving DecidableEq

/-- What a listing function did: the entries it passed to its callback, and the error it returned. -/
structure Listed (key : Option Entry → Name) where
  delivered : Listing key
  err : Option ListError := none

/-- The remotes as a job sees them. -/
structure Sides (m : March) where
  src : Listed m.srcKey
  dst : Listed m.dstKey
  /-- `m.Fdst.NewObject`; `none` is any error. -/
  newObject : Name → Option Entry

section

variable {m : March} (job : ListDirJob) (sides : Sides m)

def srcEntries : List Entry := if job.noSrc then [] else sides.src.delivered.entries

/-- The lookup of a worker in the `NoTraverse` branch: by the leaf of the source entry; directories have none. -/
def matchTask (src : Entry) : Option Entry :=
  if src.isDirectory then none else sides.newObject (Paths.join [job.dstRemote, Paths.base src.remote])

def srcChan : List (Option Entry) := (srcEntries job sides).map some

def dstChan : List (Option Entry) :=
  if !m.noTraverse && !job.noDst then sides.dst.delivered.entries.map some
  else if m.noTraverse && !m.noCheckDest then (srcEntries job sides).map (matchTask job sides)
  else []

end

/-- The job a callback adds when the `Marcher` asks to recurse. -/
def subJob (job : ListDirJob) (recurse : Callback → Bool) (c : Callback) : Option ListDirJob :=
  match c with
  | .srcOnly src =>
    if recurse c && 0 < job.srcDepth then
      some { srcRemote := src.remote, dstRemote := src.remote, srcDepth := job.srcDepth - 1, noDst := true }
    else none
  | .dstOnly (some dst) =>
    if recurse c && 0 < job.dstDepth then
      some { srcRemote := dst.remote, dstRemote := dst.remote, dstDepth := job.dstDepth - 1, noSrc := true }
    else none
  | .dstOnly none => none
  | .matched dst src =>
    if recurse c && 0 < job.srcDepth && 0 < job.dstDepth then
      some { srcRemote := src.remote, dstRemote := dst.remote, srcDepth := job.srcDepth - 1,
             dstDepth := job.dstDepth - 1 }
    else none

/-- The error a job returns once the matching is over: the source listing's first, the destination's unless the
listing was cancelled or found no directory. -/
def listingError (srcErr dstErr : Option ListError) (dstCancelled : Bool) : Option ListError :=
  match srcErr with
  | some err => some err
  | none => if dstCancelled || dstErr = some .dirNotFound then none else dstErr

structure JobResult where
  outcome : Outcome
  jobs : List ListDirJob
  err : Option ListError
  deriving DecidableEq

/-- `March.processJob`, with the goroutines run one after the other. `dstOver` says whether the destination listing was
over before the loop cancelled it: only a listing cut short is marked as cancelled. -/
def processJob {m : March} (job : ListDirJob) (sides : Sides m) (recurse : Callback → Bool) (dstOver : Bool) :
    JobResult :=
  let outcome := matchListings m (srcChan job sides) (dstChan job sides)
  let srcErr := if job.noSrc then none else sides.src.err
  let dstErr := if !m.noTraverse && !job.noDst then sides.dst.err else none
  match listingError srcErr dstErr (outcome.exit = .returned true && !dstOver) with
  | some err => ⟨outcome, [], some err⟩
  | none => ⟨outcome, outcome.callbacks.filterMap (subJob job recurse), none⟩

end ZClone.March
