import Mathlib.Data.List.Sort
import ZClone.Bisync.FileList

/-!
# Changes since the prior run (`cmd/bisync/deltas.go`, `compare.go`)

- `findDeltas` compares the listing of a path with the one of the prior run. For the files that are new or modified it
  keeps the values that a conflict is decided by: a value that did not change is kept as the zero value.
- `entry_findDeltas` says what is kept of each file, in whatever order the listings are.
-/

namespace ZClone.Bisync

open List
open Paths (Text ascii)

inductive Prefer where
  | none | path1 | path2 | newer | older | larger | smaller
  deriving DecidableEq

inductive ConflictLoserAction where
  | skip | number | pathname | delete
  deriving DecidableEq

/-- The options that are read; a modify window is missing if a remote does not support times. -/
structure Options where
  compareSize : Bool
  compareModtime : Bool
  compareChecksum : Bool
  downloadHash : Bool := false
  hashType1 : Option Text := none
  hashType2 : Option Text := none
  conflictResolve : Prefer := .none
  conflictLoser : ConflictLoserAction := .number
  conflictSuffix1 : Text := ascii ".conflict".toList
  conflictSuffix2 : Text := ascii ".conflict".toList
  suffixKeepExtension : Bool := false
  resync : Bool := false
  fixCase : Bool := false
  /-- `GetModifyWindow` of both paths. -/
  modifyWindow : Option Int := some 1

/-! ## Comparison -/

def sizeDiffers (a b : Int) : Bool := if a < 0 ∨ b < 0 then false else a ≠ b

/-- The name of `hash.MD5`. -/
def md5 : Text := ascii ['m', 'd', '5']

/-- Whether hashes of the two types can be compared. -/
def Options.comparable (opt : Options) (ht1 ht2 : Option Text) : Bool :=
  ht1 = ht2 || opt.downloadHash && (ht1 = some md5 && ht2 = none || ht1 = none && ht2 = some md5)

def hashDiffers (opt : Options) (a b : Text) (ht1 ht2 : Option Text) : Bool :=
  if a = [] ∨ b = [] then false else if ¬opt.comparable ht1 ht2 then false else a ≠ b

def timeDiffers (modifyWindow : Option Int) (a b : Int) : Bool :=
  match modifyWindow with
  | none => false
  | some window =>
    if a = zeroTime ∨ b = zeroTime then false
    else if b - a < window ∧ -window < b - a then false
    else true

/-! ## Deltas -/

/-- The bits of `delta`. -/
structure Delta where
  new : Bool := false
  newer : Bool := false
  older : Bool := false
  larger : Bool := false
  smaller : Bool := false
  hash : Bool := false
  deleted : Bool := false
  deriving DecidableEq

/-- `is(deltaModified)`. -/
def Delta.modified (d : Delta) : Bool := d.newer || d.older || d.larger || d.smaller || d.hash

/-- `is(deltaOther)`. -/
def Delta.other (d : Delta) : Bool := d.new || d.modified

/-- `deltaSet`; `files` are the keys of `deltas`. A map gives the zero value for a key it does not have. -/
structure DeltaSet where
  files : List Text
  deltas : Text → Option Delta
  size : Text → Int
  time : Text → Int
  hash : Text → Text

namespace DeltaSet

def none : DeltaSet := ⟨[], fun _ => Option.none, fun _ => 0, fun _ => zeroTime, fun _ => []⟩

end DeltaSet

/-- What is found out about one file. -/
structure Change where
  delta : Delta := {}
  size : Int := 0
  time : Int := zeroTime
  hash : Text := []

section

variable (opt : Options) (modifyWindow : Option Int) (old now : FileList)

/-- A file of the prior listing. Directories are not compared. -/
def changed (file : Text) : Change :=
  if ¬now.has file then { delta := { deleted := true } }
  else if now.isDir file then {}
  else
    let size := opt.compareSize && sizeDiffers (old.getSize file) (now.getSize file)
    let time := opt.compareModtime && timeDiffers modifyWindow (old.getTime file) (now.getTime file)
    let hash := opt.compareChecksum && hashDiffers opt (old.getHash file) (now.getHash file) old.hash now.hash
    { delta := {
        larger := size && old.getSize file < now.getSize file
        smaller := size && ¬old.getSize file < now.getSize file
        newer := time && old.beforeOther now file
        older := time && !old.beforeOther now file
        hash := hash }
      -- only a value that has changed is kept
      size := if size then now.getSize file else 0
      time := if time then now.getTime file else zeroTime
      hash := if hash then now.getHash file else [] }

/-- A file that is not in the prior listing. -/
def fresh (file : Text) : Change :=
  { delta := { new := true }, size := now.getSize file, time := now.getTime file, hash := now.getHash file }

section

variable (ds : DeltaSet) (file : Text)

def DeltaSet.put (d : Delta) : DeltaSet :=
  { ds with files := ds.files.insert file, deltas := Function.update ds.deltas file (some d) }

def DeltaSet.record (c : Change) : DeltaSet :=
  { ds.put file c.delta with
    size := if opt.compareSize then Function.update ds.size file c.size else ds.size
    time := if opt.compareModtime then Function.update ds.time file c.time else ds.time
    hash := if opt.compareChecksum then Function.update ds.hash file c.hash else ds.hash }

def addOld : DeltaSet :=
  let c := changed opt modifyWindow old now file
  if c.delta.modified then ds.record opt file c
  else if c.delta.deleted then ds.put file c.delta
  else ds

def addNow : DeltaSet := if old.has file then ds else ds.record opt file (fresh now file)

end

def checkListing (ls : FileList) : Bool := opt.resync || !ls.empty

/-- There is no result if a listing is empty. -/
def findDeltas : Option DeltaSet :=
  if checkListing opt old && checkListing opt now then
    some (now.list.foldl (addNow opt old now) (old.list.foldl (addOld opt modifyWindow old now) .none))
  else none

end

/-! ## What is kept of a file -/

/-- All that a set has of one file. -/
structure Entry where
  delta : Option Delta := none
  size : Int := 0
  time : Int := zeroTime
  hash : Text := []

def DeltaSet.entry (ds : DeltaSet) (file : Text) : Entry := ⟨ds.deltas file, ds.size file, ds.time file, ds.hash file⟩

section

variable (opt : Options) (modifyWindow : Option Int) (old now : FileList) {ds : DeltaSet} {d : Delta}

def Entry.record (e : Entry) (c : Change) : Entry where
  delta := some c.delta
  size := if opt.compareSize then c.size else e.size
  time := if opt.compareModtime then c.time else e.time
  hash := if opt.compareChecksum then c.hash else e.hash

/-- `addOld` on one file. -/
def Entry.addOld (file : Text) (e : Entry) : Entry :=
  let c := changed opt modifyWindow old now file
  if c.delta.modified then e.record opt c else if c.delta.deleted then { e with delta := some c.delta } else e

/-- `addNow` on one file. -/
def Entry.addNow (file : Text) (e : Entry) : Entry := if old.has file then e else e.record opt (fresh now file)

variable {opt modifyWindow old now} {file : Text}

theorem entry_put (ds : DeltaSet) (file : Text) (d : Delta) (k : Text) :
    (ds.put file d).entry k = if k = file then { ds.entry file with delta := some d } else ds.entry k := by
  by_cases hk : k = file
  · subst hk
    simp [DeltaSet.entry, DeltaSet.put]
  · simp [DeltaSet.entry, DeltaSet.put, hk]

theorem entry_record (ds : DeltaSet) (file : Text) (c : Change) (k : Text) :
    (ds.record opt file c).entry k = if k = file then (ds.entry file).record opt c else ds.entry k := by
  by_cases hk : k = file
  · subst hk
    simp only [DeltaSet.entry, DeltaSet.record, DeltaSet.put, Entry.record, Function.update_self, if_pos]
    congr 1 <;> split <;> simp
  · simp only [DeltaSet.entry, DeltaSet.record, DeltaSet.put, Function.update_of_ne hk, if_neg hk]
    congr 1 <;> split <;> simp [hk]

theorem entry_addOld (ds : DeltaSet) (file k : Text) : (addOld opt modifyWindow old now ds file).entry k =
      if k = file then (ds.entry file).addOld opt modifyWindow old now file else ds.entry k := by
  simp only [addOld, Entry.addOld]
  by_cases hmodified : (changed opt modifyWindow old now file).delta.modified = true
  · rw [if_pos hmodified, if_pos hmodified, entry_record]
  · rw [if_neg hmodified, if_neg hmodified]
    by_cases hdeleted : (changed opt modifyWindow old now file).delta.deleted = true
    · rw [if_pos hdeleted, if_pos hdeleted, entry_put]
    · rw [if_neg hdeleted, if_neg hdeleted]
      by_cases hk : k = file
      · rw [if_pos hk, hk]
      · rw [if_neg hk]

theorem entry_addNow (ds : DeltaSet) (file k : Text) :
    (addNow opt old now ds file).entry k = if k = file then (ds.entry file).addNow opt old now file
      else ds.entry k := by
  simp only [addNow, Entry.addNow]
  by_cases hhas : old.has file = true
  · rw [if_pos hhas, if_pos hhas]
    by_cases hk : k = file
    · rw [if_pos hk, hk]
    · rw [if_neg hk]
  · rw [if_neg hhas, if_neg hhas, entry_record]

theorem Entry.record_record (e : Entry) (c : Change) : (e.record opt c).record opt c = e.record opt c := by
  simp only [Entry.record]
  congr 1 <;> split <;> rfl

theorem Entry.addOld_addOld (file : Text) (e : Entry) :
    (e.addOld opt modifyWindow old now file).addOld opt modifyWindow old now file =
      e.addOld opt modifyWindow old now file := by
  simp only [Entry.addOld]
  split
  · exact e.record_record _
  · split <;> rfl

theorem Entry.addNow_addNow (file : Text) (e : Entry) :
    (e.addNow opt old now file).addNow opt old now file = e.addNow opt old now file := by
  simp only [Entry.addNow]
  split
  · rfl
  · exact e.record_record _

/-- A loop that changes only what it is at, and changes nothing when it comes there again. -/
theorem foldl_entry {step : DeltaSet → Text → DeltaSet} {f : Text → Entry → Entry}
    (hstep : ∀ ds file k, (step ds file).entry k = if k = file then f file (ds.entry file) else ds.entry k)
    (hagain : ∀ file e, f file (f file e) = f file e) (k : Text) :
    ∀ (files : List Text) (ds : DeltaSet), (files.foldl step ds).entry k = if k ∈ files then f k (ds.entry k)
      else ds.entry k
  | [], ds => by rw [foldl_nil, if_neg not_mem_nil]
  | file :: files, ds => by
    rw [foldl_cons, foldl_entry hstep hagain k files, hstep]
    by_cases hk : k = file
    · subst hk
      rw [if_pos rfl, if_pos mem_cons_self, hagain]
      exact ite_self _
    · rw [if_neg hk]
      simp only [mem_cons, hk, false_or]

theorem entry_findDeltas (h : findDeltas opt modifyWindow old now = some ds) (k : Text) : ds.entry k =
      let e : Entry := if k ∈ old.list then Entry.addOld opt modifyWindow old now k {} else {}
      if k ∈ now.list then e.addNow opt old now k else e := by
  rw [findDeltas] at h
  split at h
  · rw [← Option.some.inj h, foldl_entry entry_addNow Entry.addNow_addNow, foldl_entry entry_addOld Entry.addOld_addOld]
    rfl
  · exact absurd h nofun

/-! ## The size that is kept -/

theorem changed_new (file : Text) : (changed opt modifyWindow old now file).delta.new = false := by
  simp only [changed]
  split
  · rfl
  · split <;> rfl

/-- A file that is modified is there, and its size is kept if it has changed. -/
theorem changed_size (h : (changed opt modifyWindow old now file).delta.modified = true) :
    (changed opt modifyWindow old now file).size =
      if opt.compareSize && sizeDiffers (old.getSize file) (now.getSize file) then now.getSize file else 0 := by
  revert h
  simp only [changed]
  split
  · exact nofun
  · split
    · exact nofun
    · exact fun _ => rfl

/-- The file is not in the prior listing. -/
def Unlisted (old now : FileList) (file : Text) : Prop := file ∈ now.list ∧ ¬old.has file = true

/-- Where a delta comes from: the file is new, or it is in both listings and differs, or it is gone. -/
theorem entry_cases (h : findDeltas opt modifyWindow old now = some ds) (hd : ds.deltas file = some d) :
    (Unlisted old now file ∧ ∃ e : Entry, ds.entry file = e.record opt (fresh now file)) ∨
      (¬Unlisted old now file ∧ d = (changed opt modifyWindow old now file).delta ∧ (d.modified = true →
        ds.entry file = ({} : Entry).record opt (changed opt modifyWindow old now file))) := by
  have hentry := entry_findDeltas h file
  have hdelta : (ds.entry file).delta = some d := hd
  rw [hentry] at hdelta ⊢
  by_cases hnew : Unlisted old now file
  · exact .inl ⟨hnew, _, by rw [if_pos hnew.1, Entry.addNow, if_neg hnew.2]⟩
  · have hkeep : ∀ e : Entry, (if file ∈ now.list then e.addNow opt old now file else e) = e := by
      intro e
      by_cases hmem : file ∈ now.list
      · rw [if_pos hmem, Entry.addNow, if_pos (by simpa [Unlisted, hmem] using hnew)]
      · rw [if_neg hmem]
    rw [hkeep] at hdelta ⊢
    by_cases hold : file ∈ old.list
    · rw [if_pos hold, Entry.addOld] at hdelta ⊢
      by_cases hmodified : (changed opt modifyWindow old now file).delta.modified = true
      · rw [if_pos hmodified] at hdelta ⊢
        exact .inr ⟨hnew, (Option.some.inj hdelta).symm, fun _ => rfl⟩
      · rw [if_neg hmodified] at hdelta
        by_cases hdeleted : (changed opt modifyWindow old now file).delta.deleted = true
        · rw [if_pos hdeleted] at hdelta
          have hd' : (changed opt modifyWindow old now file).delta = d := Option.some.inj hdelta
          exact .inr ⟨hnew, hd'.symm, fun h => absurd (hd' ▸ h) hmodified⟩
        · rw [if_neg hdeleted] at hdelta
          exact absurd hdelta nofun
    · rw [if_neg hold] at hdelta
      exact absurd hdelta nofun

/-- The file is new, or its size is known to have changed. -/
def Resized (old now : FileList) (file : Text) : Prop :=
  Unlisted old now file ∨ sizeDiffers (old.getSize file) (now.getSize file) = true

instance (old now : FileList) (file : Text) : Decidable (Resized old now file) :=
  inferInstanceAs (Decidable ((_ ∧ _) ∨ _))

theorem size_findDeltas (hsize : opt.compareSize = true) (h : findDeltas opt modifyWindow old now = some ds)
    (hd : ds.deltas file = some d) (hother : d.other = true) :
    ds.size file = if Resized old now file then now.getSize file else 0 := by
  change (ds.entry file).size = _
  obtain ⟨hnew, e, he⟩ | ⟨hnew, rfl, he⟩ := entry_cases h hd
  · rw [he, Entry.record, if_pos hsize, if_pos (show Resized old now file from .inl hnew)]
    rfl
  · rw [Delta.other, changed_new, Bool.false_or] at hother
    rw [he hother, Entry.record, if_pos hsize, changed_size hother, hsize, Bool.true_and]
    simp only [Resized, hnew, false_or]

end

end ZClone.Bisync
