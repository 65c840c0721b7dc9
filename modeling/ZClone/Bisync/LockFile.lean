import ZClone.Lib.Run
import Mathlib.Data.Fintype.Basic

/-!
# The lock file of bisync (`cmd/bisync/lockfile.go`)

- `next` has the file operations of `setLockFile`, of `renewLockFile` and of `removeLockFile`, one at a time. No lock
  expires.
- `Careful` steps: nobody looks for the lock file while another run is about to create it, and a run with `--max-lock`
  does not take a lock file for expired because it can not be decoded.
- `one_run_at_a_time`: with careful steps only, at most one run has the lock. `two_runs_at_once`: without them two may
  have it.
-/

namespace ZClone.Bisync.Lock

/-- What is in the lock file: the process id that `setLockFile` writes, which is no JSON object, or what `renewLockFile`
writes. -/
inductive Content where
  | pid | data
  deriving DecidableEq

structure Options where
  dryRun : Bool
  /-- `--max-lock` is set, so that the lock is renewed. -/
  maxLock : Bool

/-- How far a run has come. -/
inductive Pc where
  | idle
  /-- There is a lock file. -/
  | found
  /-- `lockFileIsExpired` is about to read it. -/
  | reading
  /-- There is none, or it has expired. -/
  | clear
  | wrote
  /-- `setLockFile` renews the file before it returns. -/
  | renewing
  /-- `setLockFile` has returned. The lock is being renewed, or `removeLockFile` has been called. -/
  | running (renewing removing : Bool)
  /-- A dry run takes no lock. -/
  | dry
  | removed
  /-- `setLockFile` has returned an error. -/
  | failed
  deriving DecidableEq

/-- The next file operation of a run. -/
def next (o : Options) (file : Option Content) : Pc → Option (Option Content × Pc)
  | .idle =>
    if o.dryRun then some (file, .dry)
    else if file = none then some (file, .clear)
    else some (file, .found)
  | .found => if file = none then some (file, .failed) else some (file, .reading)
  -- what can not be decoded, a file that is gone among them, has expired
  | .reading => if o.maxLock ∧ file ≠ some .data then some (file, .clear) else some (file, .failed)
  | .clear => some (some .pid, .wrote)
  | .wrote => if file = none then some (file, .running false false) else some (file, .renewing)
  | .renewing => some (some .data, .running false false)
  | .running true removing => some (some .data, .running false removing)
  | .running false true => some (none, .removed)
  | .running false false | .dry | .removed | .failed => none

structure State (ι : Type) where
  file : Option Content
  pc : ι → Pc

inductive Action (ι : Type) where
  | next (i : ι)
  /-- The ticker of the renewal. -/
  | tick (i : ι)
  | callRemove (i : ι)

section

variable {ι : Type} [DecidableEq ι]

def State.move (s : State ι) (file : Option Content) (i : ι) (pc : Pc) : State ι := ⟨file, Function.update s.pc i pc⟩

def step (opt : ι → Options) (s : State ι) : Action ι → Option (State ι)
  | .next i => (next (opt i) s.file (s.pc i)).map fun r => s.move r.1 i r.2
  | .tick i =>
    match s.pc i with
    | .running false removing =>
      if (opt i).maxLock then some (s.move s.file i (.running s.file.isSome removing)) else none
    | _ => none
  | .callRemove i =>
    match s.pc i with
    | .running renewing false => some (s.move s.file i (.running renewing true))
    | _ => none

/-- The steps that take no chances. -/
def Careful (opt : ι → Options) (s : State ι) : Action ι → Prop
  | .next i => (s.pc i = .idle → ∀ j, s.pc j ≠ .clear) ∧ (s.pc i = .reading → (opt i).maxLock = true →
    s.file = some .data)
  | _ => True

instance [Fintype ι] {opt : ι → Options} {s : State ι} : DecidablePred (Careful opt s)
  | .next _ => inferInstanceAs (Decidable (_ ∧ _))
  | .tick _ | .callRemove _ => inferInstanceAs (Decidable True)

def CarefulStep (opt : ι → Options) (s s' : State ι) : Prop := ∃ a, Careful opt s a ∧ step opt s a = some s'

end

/-- The run has written the lock file and not removed it. -/
def Pc.locked : Pc → Bool
  | .wrote | .renewing | .running _ _ => true
  | _ => false

/-- It has, or it is going to. -/
def Pc.claims (pc : Pc) : Bool := pc = .clear || pc.locked

/-- `setLockFile` has returned without an error and `removeLockFile` has not been called. -/
def Pc.returned : Pc → Bool
  | .running _ removing => !removing
  | _ => false

variable {pc : Pc}

theorem Pc.claims_of_locked (h : pc.locked = true) : pc.claims = true := by simp [claims, h]

theorem Pc.locked_of_returned (h : pc.returned = true) : pc.locked = true := by
  cases pc <;> simp_all [returned, locked]

variable {ι : Type} [DecidableEq ι] {opt : ι → Options} {s s' : State ι} {a : Action ι} {i : ι}

/-- At most one run claims the lock, and while it is locked there is a file. -/
structure Exclusive (s : State ι) : Prop where
  one : ∀ i j, (s.pc i).claims = true → (s.pc j).claims = true → i = j
  present : ∀ i, (s.pc i).locked = true → s.file ≠ none

/-- A run that claimed the lock before may do so, and remove the file; another one if nobody claims it. -/
theorem Exclusive.move (h : Exclusive s) {file : Option Content}
    (hclaim : pc.claims = true → (s.pc i).claims = true ∨ ∀ j, (s.pc j).claims = false)
    (hlocked : pc.locked = true → file ≠ none) (hfile : file = none → s.file = none ∨ (s.pc i).claims = true) :
    Exclusive (s.move file i pc) := by
  constructor
  · have hother : pc.claims = true → ∀ j, (s.pc j).claims = true → j = i := by
      intro hpc j hj
      rcases hclaim hpc with hi | hnone
      · exact h.one j i hj hi
      · rw [hnone j] at hj
        cases hj
    intro j k hj hk
    simp only [State.move, Function.update_apply] at hj hk
    split_ifs at hj hk with hji hki
    · rw [hji, hki]
    · rw [hji, hother hj k hk]
    · rw [‹k = i›, hother hk j hj]
    · exact h.one j k hj hk
  · intro j hj
    simp only [State.move, Function.update_apply] at hj ⊢
    split_ifs at hj with hji
    · exact hlocked hj
    · intro hnone
      rcases hfile hnone with hfile | hi
      · exact h.present j hj hfile
      · exact hji (h.one j i (Pc.claims_of_locked hj) hi)

omit [DecidableEq ι] in
theorem Exclusive.none_locked (h : Exclusive s) (hfile : s.file = none) (hclear : ∀ j, s.pc j ≠ .clear) (j : ι) :
    (s.pc j).claims = false := by
  by_contra hj
  simp only [Pc.claims, Bool.not_eq_false, Bool.or_eq_true, decide_eq_true_eq] at hj
  exact hj.elim (hclear j) fun hj => h.present j hj hfile

/-- The operations of a run, one by one. -/
theorem Exclusive.next (h : Exclusive s) (hcareful : Careful opt s (.next i)) {r : Option Content × Pc}
    (hnext : next (opt i) s.file (s.pc i) = some r) : Exclusive (s.move r.1 i r.2) := by
  obtain ⟨hidle, hread⟩ := hcareful
  cases hpc : s.pc i with
  | idle =>
    rw [hpc, Lock.next] at hnext
    split_ifs at hnext with hdry hfile
    · cases hnext
      exact h.move (by nofun) (by nofun) .inl
    · cases hnext
      exact h.move (fun _ => .inr (h.none_locked hfile (hidle hpc))) (by nofun) .inl
    · cases hnext
      exact h.move (by nofun) (by nofun) .inl
  | found =>
    rw [hpc, Lock.next] at hnext
    split_ifs at hnext <;> cases hnext <;> exact h.move (by nofun) (by nofun) .inl
  | reading =>
    rw [hpc, Lock.next, if_neg fun hbad => hbad.2 (hread hpc hbad.1)] at hnext
    cases hnext
    exact h.move (by nofun) (by nofun) .inl
  | clear | renewing =>
    rw [hpc] at hnext
    cases hnext
    exact h.move (fun _ => .inl (by rw [hpc]; rfl)) (by simp) (by nofun)
  | wrote =>
    have hclaims : (s.pc i).claims = true := by rw [hpc]; rfl
    have hpresent := h.present i (by rw [hpc]; rfl)
    rw [hpc, Lock.next, if_neg hpresent] at hnext
    cases hnext
    exact h.move (fun _ => .inl hclaims) (fun _ => hpresent) .inl
  | running renewing removing =>
    have hclaims : (s.pc i).claims = true := by rw [hpc]; rfl
    rw [hpc] at hnext
    cases renewing with
    | true =>
      cases hnext
      exact h.move (fun _ => .inl hclaims) (by simp) (by nofun)
    | false =>
      cases removing with
      | true =>
        cases hnext
        exact h.move (by nofun) (by nofun) fun _ => .inr hclaims
      | false => cases hnext
  | dry | removed | failed =>
    rw [hpc] at hnext
    cases hnext

theorem Exclusive.step (h : Exclusive s) (hcareful : Careful opt s a) (hstep : step opt s a = some s') :
    Exclusive s' := by
  cases a with
  | next i =>
    obtain ⟨r, hnext, rfl⟩ := Option.map_eq_some_iff.mp hstep
    exact h.next hcareful hnext
  | tick i =>
    simp only [Lock.step] at hstep
    split at hstep
    · rename_i removing hpc
      have hlocked : (s.pc i).locked = true := by rw [hpc]; rfl
      split_ifs at hstep
      cases hstep
      exact h.move (fun _ => .inl (Pc.claims_of_locked hlocked)) (fun _ => h.present i hlocked) .inl
    · cases hstep
  | callRemove i =>
    simp only [Lock.step] at hstep
    split at hstep
    · rename_i renewing hpc
      have hlocked : (s.pc i).locked = true := by rw [hpc]; rfl
      cases hstep
      exact h.move (fun _ => .inl (Pc.claims_of_locked hlocked)) (fun _ => h.present i hlocked) .inl
    · cases hstep

/-- In every run of careful steps, from any lock file on, at most one run has returned from `setLockFile` and not called
`removeLockFile`. -/
theorem one_run_at_a_time {file : Option Content}
    (hrun : Relation.ReflTransGen (CarefulStep opt) ⟨file, fun _ => .idle⟩ s) {i j : ι} (hi : (s.pc i).returned = true)
    (hj : (s.pc j).returned = true) : i = j := by
  have hexclusive : Exclusive s := by
    refine Run.invariant ?_ hrun ⟨by nofun, by nofun⟩
    rintro s s' h ⟨a, hcareful, hstep⟩
    exact h.step hcareful hstep
  exact hexclusive.one i j (Pc.claims_of_locked (Pc.locked_of_returned hi))
    (Pc.claims_of_locked (Pc.locked_of_returned hj))

/-- One run takes the lock, and another one finds it. -/
theorem one_run_at_a_time_second : ∃ s : State Bool,
    Relation.ReflTransGen (CarefulStep fun _ => ⟨false, true⟩) ⟨none, fun _ => .idle⟩ s ∧ (s.pc true).returned = true ∧
      s.pc false = .failed ∧ ∀ i, (s.pc i).returned = true → i = true := by
  obtain ⟨s, hs⟩ :
    ∃ s : State Bool, [.next true, .next true, .next true, .next true, .tick true, .next false, .next false,
      .next false].foldlM
      (fun s a => if Careful (fun _ => ⟨false, true⟩) s a then step (fun _ => ⟨false, true⟩) s a else none)
        ⟨none, fun _ => .idle⟩ = some s := ⟨_, rfl⟩
  have hreturned : (s.pc true).returned = true ∧ s.pc false = .failed := by
    cases hs
    decide
  have hrun : Relation.ReflTransGen (CarefulStep fun _ => ⟨false, true⟩) ⟨none, fun _ => .idle⟩ s :=
    (Run.of_foldlM hs).lift id fun s s' h => h.imp fun a ha => Option.ite_none_right_eq_some.mp ha
  exact ⟨s, hrun, hreturned.1, hreturned.2, fun i hi => one_run_at_a_time hrun hi hreturned.1⟩

/-- Two runs look for the lock file before one of them creates it. And with `--max-lock` a run takes the lock of another
one that has just created it. -/
theorem two_runs_at_once :
    (∃ s : State Bool, [.next false, .next true, .next false, .next true, .next false, .next true, .next false,
      .next true].foldlM
      (step fun _ => ⟨false, false⟩) ⟨none, fun _ => .idle⟩ = some s ∧ ∀ i, (s.pc i).returned = true) ∧
    ∃ s : State Bool, [.next false, .next false, .next true, .next true, .next true, .next true, .next true, .next true,
      .next false,
      .next false].foldlM (step fun _ => ⟨false, true⟩) ⟨none, fun _ => .idle⟩ = some s ∧
        ∀ i, (s.pc i).returned = true := by
  exact ⟨⟨_, rfl, by decide⟩, ⟨_, rfl, by decide⟩⟩

end ZClone.Bisync.Lock
