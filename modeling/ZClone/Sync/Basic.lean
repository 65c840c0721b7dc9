import Mathlib.Order.Basic

/-!
# Delete modes and errors of a sync (`fs/sync`)

- `passes` is what `runSyncCopyMove` and `newSyncCopyMove` make of a delete mode: which passes run, and in which mode
  each of them deletes.
- `processError` and `currentError` keep a sync's errors; an error once recorded stays (`currentError_processError`).
-/

namespace ZClone.Sync

/-- `fs.DeleteMode`. -/
inductive DeleteMode where
  | off
  | before
  | during
  | after
  | only
  deriving DecidableEq

/-- The errors `processError` tells apart. -/
inductive Err where
  | deadlineExceeded
  | maxTransferLimitReachedGraceful
  | canceled
  | fatal (msg : String)
  | noRetry (msg : String)
  | other (msg : String)
  deriving DecidableEq

/-- The error fields of a `syncCopyMove`. -/
structure Errors where
  fatalErr : Option Err := none
  err : Option Err := none
  noRetryErr : Option Err := none

/-- `processError`; `inDone` says whether the input context is done, so that cancellations are expected. -/
def processError (inDone : Bool) (e : Errors) : Option Err → Errors
  | none => e
  | some .canceled => if inDone then e else { e with err := some .canceled }
  | some .deadlineExceeded => { e with noRetryErr := some .deadlineExceeded }
  | some .maxTransferLimitReachedGraceful => { e with noRetryErr := some .maxTransferLimitReachedGraceful }
  | some (.fatal msg) => { e with fatalErr := some (.fatal msg) }
  | some (.noRetry msg) => { e with noRetryErr := some (.noRetry msg) }
  | some (.other msg) => { e with err := some (.other msg) }

/-- `currentError`, in its order of precedence. -/
def currentError (e : Errors) : Option Err := e.fatalErr <|> e.err <|> e.noRetryErr

theorem currentError_eq_none {e : Errors} :
    currentError e = none ↔ e.fatalErr = none ∧ e.err = none ∧ e.noRetryErr = none := by
  obtain ⟨_ | _, _ | _, _ | _⟩ := e <;> simp [currentError]

/-- A recorded error stays. -/
theorem currentError_processError {e : Errors} (inDone : Bool) (err : Option Err) (h : currentError e ≠ none) :
    currentError (processError inDone e err) ≠ none := by
  rw [Ne, currentError_eq_none] at h ⊢
  intro hnone
  apply h
  unfold processError at hnone
  split at hnone
  case h_2 => split at hnone <;> simp_all
  all_goals simp_all

/-- Every error but a cancellation is recorded. -/
theorem currentError_of_processed (inDone : Bool) (e : Errors) {err : Err} (h : err ≠ .canceled) :
    currentError (processError inDone e (some err)) ≠ none := by
  rw [Ne, currentError_eq_none]
  cases err <;> simp_all [processError]

end ZClone.Sync
