import Mathlib.Logic.Function.Basic
import ZClone.Lib.Path

/-!
# Virtual entries of a directory (`vfs/dir.go`)

What has been created or deleted through the VFS is virtual until a listing of the remote shows it. A directory has its
items and the states of the virtual names.

A re-read purges the virtual states before it looks at the listing. So every deletion is forgotten, and so is every
creation except for a file that is being written or uploaded, or for a directory on a remote that cannot have empty
ones. `held_iff`: a name keeps what was done to it just if no re-read with a stale listing comes, these creations apart.
-/

namespace ZClone.Vfs.Virtual

open Function
open Paths (Text up)

inductive Node where
  | file
  | dir

/-- `vOK` is no state at all. -/
inductive VState where
  | addFile
  | addDir
  | del

structure Dir where
  items : Text → Option Node
  virtual : Text → Option VState

/-- What a listing shows: an object or a directory, by the last part of its remote. -/
structure DirEntry where
  base : Text
  node : Node

/-- `cut` removes the suffix of links if there are any; it does nothing otherwise. -/
structure Env where
  canHaveEmptyDirectories : Bool
  cut : Text → Text

/-- `busy` tells which files are being written or are in use in the cache at the time of the re-read. -/
inductive Event where
  | addObject (leaf : Text) (node : Node)
  | addVirtual (leaf : Text) (node : Node)
  | delObject (leaf : Text)
  | readDir (entries : List DirEntry) (busy : Text → Bool)

section Code

variable (env : Env)

def Node.vAdd : Node → VState
  | .file => .addFile
  | .dir => .addDir

/-- Another item and another state for a name. -/
def Dir.put (d : Dir) (leaf : Text) (item : Option Node) (v : Option VState) : Dir :=
  ⟨Function.update d.items leaf item, Function.update d.virtual leaf v⟩

def addObject (leaf : Text) (node : Node) (d : Dir) : Dir := d.put leaf (some node) (some node.vAdd)

/-- The name that `AddVirtual` creates. -/
def virtualName (leaf : Text) : Node → Text
  | .file => env.cut leaf
  | .dir => leaf

def addVirtual (leaf : Text) (node : Node) (d : Dir) : Dir :=
  if (d.items leaf).isSome then d else addObject (virtualName env leaf node) node d

def delObject (leaf : Text) (d : Dir) : Dir := d.put leaf none (some .del)

/-- Whether `_purgeVirtual` leaves a virtual state. -/
def stays (busy : Bool) (item : Option Node) : VState → Bool
  | .addDir => !env.canHaveEmptyDirectories
  | .addFile =>
    match item with
    | some .file => busy
    | _ => false
  | .del => false

def purgeVirtual (busy : Text → Bool) (d : Dir) : Dir :=
  { d with virtual := fun name => (d.virtual name).filter (stays env (busy name) (d.items name)) }

def entryName (e : DirEntry) : Text := env.cut e.base

def proper (entries : List DirEntry) : List DirEntry := entries.filter fun e => e.base ≠ Paths.here ∧ e.base ≠ up

/-- The names that are recorded. -/
def listed (entries : List DirEntry) : List Text := (proper entries).map (entryName env)

/-- An entry of the listing, with `mv.add`. -/
def readEntry (d : Dir) (e : DirEntry) : Dir :=
  match d.virtual (entryName env e) with
  | some .del => d
  | _ => d.put (entryName env e) (some e.node) none

/-- `mv.end` -/
def finish (names : List Text) (d : Dir) : Dir where
  items name :=
    if name ∈ names then d.items name
    else match d.virtual name with
      | some .addFile | some .addDir => d.items name
      | _ => none
  virtual name :=
    if name ∈ names then d.virtual name
    else match d.virtual name with
      | some .del => none
      | v => v

def readDirFromEntries (entries : List DirEntry) (busy : Text → Bool) (d : Dir) : Dir :=
  finish (listed env entries) ((proper entries).foldl (readEntry env) (purgeVirtual env busy d))

def step (d : Dir) : Event → Dir
  | .addObject leaf node => addObject leaf node d
  | .addVirtual leaf node => addVirtual env leaf node d
  | .delObject leaf => delObject leaf d
  | .readDir entries busy => readDirFromEntries env entries busy d

end Code

/-! ## What is promised -/

variable {env : Env} {d : Dir} {name leaf : Text} {created : Bool} {es : List DirEntry}

/-- The promise for a name is over: a created name has been listed or is deleted again, a deleted name was missing in a
listing or is created again. -/
def Settles (env : Env) (d : Dir) (name : Text) (created : Bool) : Event → Prop
  | .addObject leaf _ => created = false ∧ leaf = name
  | .addVirtual leaf node => created = false ∧ (d.items leaf).isSome = false ∧ virtualName env leaf node = name
  | .delObject leaf => created = true ∧ leaf = name
  | .readDir entries _ => (name ∈ listed env entries ↔ created = true)

/-- A lookup finds the name just if it has been created, as long as the promise is not over. -/
def Held (env : Env) (name : Text) (created : Bool) : Dir → List Event → Prop
  | d, [] => (d.items name).isSome = created
  | d, e :: es =>
    (d.items name).isSome = created ∧ (Settles env d name created e ∨ Held env name created (step env d e) es)

/-- The state of the name survives the purge. -/
def Spared (env : Env) (d : Dir) (name : Text) : Event → Prop
  | .readDir _ busy => ∃ v, d.virtual name = some v ∧ stays env (busy name) (d.items name) v
  | _ => True

/-- All re-reads spare the name as long as the promise is not over. -/
def AllSpared (env : Env) (name : Text) (created : Bool) : Dir → List Event → Prop
  | _, [] => True
  | d, e :: es => Settles env d name created e ∨ Spared env d name e ∧ AllSpared env name created (step env d e) es

/-- The name has the state that its creation or deletion gave it. -/
def Pending (d : Dir) (name : Text) : Bool → Prop
  | true => ∃ node, d.items name = some node ∧ d.virtual name = some node.vAdd
  | false => d.items name = none ∧ d.virtual name = some .del

theorem Pending.isSome (h : Pending d name created) : (d.items name).isSome = created := by
  cases created with
  | true =>
    obtain ⟨node, hitem, -⟩ := h
    rw [hitem]
    rfl
  | false =>
    rw [h.1]
    rfl

section Put

variable {i : Option Node} {v : Option VState} (hne : leaf ≠ name)

include hne

theorem put_of_ne : (d.put leaf i v).items name = d.items name ∧ (d.put leaf i v).virtual name = d.virtual name :=
  ⟨update_of_ne hne.symm .., update_of_ne hne.symm ..⟩

/-- What happens to another name makes no difference. -/
theorem Pending.put (h : Pending d name created) : Pending (d.put leaf i v) name created := by
  obtain ⟨hitem, hvirtual⟩ := put_of_ne (d := d) (i := i) (v := v) hne
  cases created <;> simpa only [Pending, hitem, hvirtual] using h

end Put

theorem pending_addObject (node : Node) : Pending (addObject name node d) name true :=
  ⟨node, update_self .., update_self ..⟩

theorem pending_delObject : Pending (delObject name d) name false := ⟨update_self .., update_self ..⟩

/-! ## A re-read -/

theorem readEntry_of_ne {e : DirEntry} (h : entryName env e ≠ name) :
    (readEntry env d e).items name = d.items name ∧ (readEntry env d e).virtual name = d.virtual name := by
  unfold readEntry
  split
  · exact ⟨rfl, rfl⟩
  · exact put_of_ne h

theorem foldl_readEntry_of_notMem (h : name ∉ es.map (entryName env)) :
    (es.foldl (readEntry env) d).items name = d.items name ∧
      (es.foldl (readEntry env) d).virtual name = d.virtual name := by
  induction es generalizing d with
  | nil => exact ⟨rfl, rfl⟩
  | cons e es ih =>
    obtain ⟨he, hes⟩ := not_or.mp (mt List.mem_cons.mpr h)
    obtain ⟨hitem, hvirtual⟩ := readEntry_of_ne (d := d) (Ne.symm he)
    obtain ⟨hitem', hvirtual'⟩ := ih (d := readEntry env d e) hes
    exact ⟨hitem'.trans hitem, hvirtual'.trans hvirtual⟩

/-- Without a virtual state an entry becomes an item. -/
theorem foldl_readEntry_isSome (hvirtual : d.virtual name = none)
    (h : (d.items name).isSome ∨ name ∈ es.map (entryName env)) : ((es.foldl (readEntry env) d).items name).isSome := by
  induction es generalizing d with
  | nil => simpa using h
  | cons e es ih =>
    by_cases he : entryName env e = name
    · have hentry : readEntry env d e = d.put name (some e.node) none := by rw [readEntry, he, hvirtual]
      refine ih ?_ (.inl ?_)
      all_goals simp [hentry, Dir.put]
    · obtain ⟨hitem, hvirtual'⟩ := readEntry_of_ne (d := d) he
      refine ih (hvirtual'.trans hvirtual) ?_
      rw [hitem]
      exact h.imp_right fun hmem => (List.mem_cons.mp hmem).resolve_left (Ne.symm he)

section Read

variable {entries : List DirEntry} {busy : Text → Bool}

section

variable (h : Pending d name created) (hsettles : ¬ Settles env d name created (.readDir entries busy))

include h hsettles

theorem readDir_spared (hspared : Spared env d name (.readDir entries busy)) :
    Pending (readDirFromEntries env entries busy d) name created := by
  obtain ⟨v, hv, hstays⟩ := hspared
  cases created with
  | true =>
    obtain ⟨node, hitem, hvirtual⟩ := h
    have hnot : name ∉ listed env entries := fun hmem => hsettles (iff_of_true hmem rfl)
    obtain ⟨hitem', hvirtual'⟩ := foldl_readEntry_of_notMem (d := purgeVirtual env busy d) hnot
    have hkept : (purgeVirtual env busy d).virtual name = some node.vAdd := by
      rw [hvirtual] at hv
      simp [purgeVirtual, hvirtual, Option.some.inj hv, hstays]
    refine ⟨node, ?_, ?_⟩
    all_goals
      dsimp only [readDirFromEntries, finish]
      rw [if_neg hnot, hvirtual', hkept]
    · cases node <;> exact hitem'.trans hitem
    · cases node <;> rfl
  | false =>
    obtain rfl := Option.some.inj (h.2.symm.trans hv)
    cases hstays

theorem readDir_forgets (hspared : ¬ Spared env d name (.readDir entries busy)) :
    ((readDirFromEntries env entries busy d).items name).isSome ≠ created := by
  -- nothing is left of the state when the listing is looked at
  have hpurged : (purgeVirtual env busy d).virtual name = none :=
    Option.filter_eq_none_iff.mpr fun v hv hstays => hspared ⟨v, hv, hstays⟩
  dsimp only [readDirFromEntries, finish]
  cases created with
  | true =>
    have hnot : name ∉ listed env entries := fun hmem => hsettles (iff_of_true hmem rfl)
    rw [if_neg hnot, (foldl_readEntry_of_notMem hnot).2, hpurged]
    simp
  | false =>
    have hmem : name ∈ listed env entries := by
      by_contra hnot
      exact hsettles (iff_of_false hnot Bool.false_ne_true)
    rw [if_pos hmem, foldl_readEntry_isSome hpurged (.inr hmem)]
    simp

end

end Read

/-! ## Runs -/

theorem addObject_spared (node : Node) (h : Pending d name created)
    (hsettles : ¬ (created = false ∧ leaf = name)) : Pending (addObject leaf node d) name created := by
  by_cases hleaf : leaf = name
  · obtain rfl := eq_true_of_ne_false fun hcreated => hsettles ⟨hcreated, hleaf⟩
    exact hleaf ▸ pending_addObject node
  · exact .put hleaf h

theorem step_spared {e : Event} (h : Pending d name created) (hsettles : ¬ Settles env d name created e)
    (hspared : Spared env d name e) : Pending (step env d e) name created := by
  cases e with
  | addObject leaf node => exact addObject_spared node h hsettles
  | addVirtual leaf node =>
    rw [step, addVirtual]
    split_ifs with hfound
    · exact h
    · exact addObject_spared node h fun hname => hsettles ⟨hname.1, eq_false_of_ne_true hfound, hname.2⟩
  | delObject leaf =>
    by_cases hleaf : leaf = name
    · obtain rfl := eq_false_of_ne_true fun hcreated => hsettles ⟨hcreated, hleaf⟩
      exact hleaf ▸ pending_delObject
    · exact .put hleaf h
  | readDir entries busy => exact readDir_spared h hsettles hspared

theorem Held.isSome {es : List Event} (h : Held env name created d es) : (d.items name).isSome = created := by
  cases es with
  | nil => exact h
  | cons e es => exact h.1

theorem held_of_pending {es : List Event} (h : Pending d name created) :
    Held env name created d es ↔ AllSpared env name created d es := by
  induction es generalizing d with
  | nil => exact iff_of_true h.isSome trivial
  | cons e es ih =>
    rw [Held, AllSpared, and_iff_right h.isSome]
    refine or_congr_right' fun hsettles => ?_
    by_cases hspared : Spared env d name e
    · rw [and_iff_right hspared]
      exact ih (step_spared h hsettles hspared)
    · refine iff_of_false (fun hheld => ?_) fun hall => hspared hall.1
      cases e with
      | readDir entries busy => exact readDir_forgets h hsettles hspared hheld.isSome
      | _ => exact hspared trivial

/-- In every directory a created or deleted name is held just if all re-reads before the end of the promise spare it. -/
theorem held_iff (env : Env) (d : Dir) (name : Text) (es : List Event) :
    (∀ node, Held env name true (addObject name node d) es ↔ AllSpared env name true (addObject name node d) es) ∧
      (Held env name false (delObject name d) es ↔ AllSpared env name false (delObject name d) es) :=
  ⟨fun node => held_of_pending (pending_addObject node), held_of_pending pending_delObject⟩

/-- A listing that still has the file brings it back. -/
theorem delObject_returns :
    ¬ Held ⟨true, id⟩ [0x61] false (delObject [0x61] ⟨fun _ => none, fun _ => none⟩)
      [.readDir [⟨[0x61], .file⟩] fun _ => false] := by
  simp [Held, Settles, listed, entryName, step]
  decide

end ZClone.Vfs.Virtual
