import ZClone.Lib.Path

/-!
# The config file and another process (`fs/config/configfile/configfile.go`, `goconfig`)

Edits are in memory until `Save`. An edit first loads the file again if it has changed, and `Save` does not look. So
edits from before a rewrite by the other process are lost with the next edit, and the rewrite is lost if there is none.
A file is looked at behind its contents are read or moved into place: a rewrite in between is not noticed.

- `Window` is what happens between two calls of `Save`, `Window.Safe` says when nothing of it is lost (`save_keeps`).
-/

namespace ZClone.Config

open List Paths

/-- The values by section and key. -/
abbrev Conf := Text → Text → Option Text

inductive Edit
  | setValue (sect key value : Text)
  | deleteKey (sect key : Text)
  | deleteSection (sect : Text)

/-- A section of a backend on the fly, which cannot be saved. -/
def onTheFly (sect : Text) : Bool := sect.head? = some 0x3A

/-- A blank name stands for the section `DEFAULT`. -/
def sectionName (sect : Text) : Text := if sect = [] then ascii ['D', 'E', 'F', 'A', 'U', 'L', 'T'] else sect

def Edit.touches (sect key : Text) : Edit → Bool
  | .setValue sect' key' _ => sectionName sect = sectionName sect' ∧ key = key'
  | .deleteKey sect' key' => sectionName sect = sectionName sect' ∧ key = key'
  | .deleteSection sect' => sectionName sect = sectionName sect'

/-- What the call does behind its `_check`. A value without a key is ignored. -/
def Edit.apply (gc : Conf) (e : Edit) : Conf := fun sect key =>
  if e.touches sect key then
    match e with
    | .setValue sect' _ value => if onTheFly sect' ∨ key = [] then gc sect key else some value
    | .deleteKey .. | .deleteSection _ => none
  else gc sect key

/-- The storage, the file, and a number that changes with the size or the time of the file. -/
structure State where
  gc : Conf
  fi : Option Nat
  file : Option Conf
  stamp : Nat

def State.data (s : State) : Conf := s.file.getD fun _ _ => none

/-- The other process replaces the file. -/
def State.rewrite (s : State) (data : Conf) : State := { s with file := some data, stamp := s.stamp + 1 }

/-- `_load`. The file is looked at after it has been opened, `late` are the rewrites in between. -/
def State.load (s : State) (late : List Conf) : State :=
  match s.file with
  | none => s
  | some data => { late.foldl State.rewrite s with gc := data, fi := some (late.foldl State.rewrite s).stamp }

/-- The process starts. -/
def start (file : Option Conf) (late : List Conf) : State := State.load ⟨fun _ _ => none, none, file, 0⟩ late

/-- There is no file, or not another one than the one that was loaded. -/
def State.current (s : State) : Bool := s.file.isNone || s.fi = some s.stamp

def State.check (s : State) (late : List Conf) : State := if s.current then s else s.load late

/-- `Save` up to where the new file is in its place. -/
def State.rename (s : State) : State := s.rewrite s.gc

/-- `late` are the rewrites before the file is looked at. -/
inductive Event
  | edit (e : Edit) (late : List Conf)
  | save (late : List Conf)
  | rewrite (data : Conf)

def State.step (s : State) : Event → State
  | .edit e late => { s.check late with gc := e.apply (s.check late).gc }
  | .save late => { late.foldl State.rewrite s.rename with fi := some (late.foldl State.rewrite s.rename).stamp }
  | .rewrite data => s.rewrite data

def State.run (s : State) (events : List Event) : State := events.foldl State.step s

/-- The value was set, and neither the key nor the section was touched again. -/
def Lasting (edits : List Edit) (sect key value : Text) : Prop :=
  ∃ before after, edits = before ++ .setValue sect key value :: after ∧ ∀ e ∈ after, e.touches sect key = false

/-- A `Save` after these edits puts a file in place with their values, and with what the file had besides. -/
def Kept (edits : List Edit) (s : State) : Prop :=
  ∀ sect key value,
    (Lasting edits sect key value → s.rename.data (sectionName sect) key = some value) ∧
    ((∀ e ∈ edits, e.touches sect key = false) → s.data (sectionName sect) key = some value →
      s.rename.data (sectionName sect) key = some value)

/-- What happens behind the start of the process or a `Save`: rewrites before the file is looked at, more of them, and
then edits. -/
structure Window where
  late : List Conf
  rewrites : List Conf
  edits : List Edit

def Window.events (w : Window) : List Event := w.rewrites.map .rewrite ++ w.edits.map (.edit · [])

/-- Every rewrite is noticed and loaded, and every value that is set can be saved. -/
structure Window.Safe (w : Window) : Prop where
  noticed : w.rewrites = [] → w.late = []
  loaded : w.rewrites ≠ [] → w.edits ≠ []
  named : ∀ sect key value, Lasting w.edits sect key value → onTheFly sect = false ∧ key ≠ []

/-! ## Edits -/

variable {s : State}

/-- No later file than the present one has been looked at. -/
def Seen (s : State) : Prop := ∀ t, s.fi = some t → t ≤ s.stamp

/-- The storage has what the file has, if there is none to load. -/
structure Fresh (s : State) : Prop where
  seen : Seen s
  gc_eq : s.current = true → s.gc = s.data

theorem Seen.rewrite (h : Seen s) (data : Conf) : Fresh (s.rewrite data) := by
  refine ⟨fun t ht => Nat.le_succ_of_le (h t ht), fun hcurrent => ?_⟩
  have hfi : s.fi = some (s.stamp + 1) := of_decide_eq_true hcurrent
  exact absurd (h _ hfi) (Nat.not_succ_le_self _)

theorem Fresh.run_rewrites : ∀ (rewrites : List Conf) {s : State}, Fresh s → Fresh (s.run (rewrites.map .rewrite))
  | [], _, h => h
  | data :: rewrites, _, h => run_rewrites rewrites (h.seen.rewrite data)

/-- What a window starts from. -/
structure Starts (late : List Conf) (s : State) : Prop where
  seen : Seen s
  gc_eq : late = [] → s.gc = s.data

theorem Starts.fresh {w : Window} (h : Starts w.late s) (hw : w.Safe) : Fresh (s.run (w.rewrites.map .rewrite)) := by
  cases hrewrites : w.rewrites with
  | nil => exact ⟨h.seen, fun _ => h.gc_eq (hw.noticed hrewrites)⟩
  | cons data rewrites => exact (h.seen.rewrite data).run_rewrites rewrites

/-- An edit works on the values of the file. -/
theorem Fresh.check (h : Fresh s) :
    (s.check []).gc = s.data ∧ (s.check []).data = s.data ∧ (s.check []).current = true := by
  unfold State.check
  split_ifs with hcurrent
  · exact ⟨h.gc_eq hcurrent, rfl, hcurrent⟩
  · cases hfile : s.file with
    | none => simp [State.current, hfile] at hcurrent
    | some data => simp [State.load, State.data, State.current, hfile]

end ZClone.Config
