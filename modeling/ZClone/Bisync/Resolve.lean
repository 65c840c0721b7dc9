import Mathlib.Data.Finset.Card
import ZClone.Bisync.Deltas
import ZClone.Lib.Decimal
import ZClone.Transform.Segments

/-!
# Conflicts (`cmd/bisync/resolve.go`)

A file that is new or changed on both paths, and not the same there.

- `conflictWinner` picks the path to keep. It compares the values that `findDeltas` has kept, which are the current ones
  only where they are new or have changed.
- `renamesInfo` are the new names, with numbers that `numerate` or `numerateSingle` find free in both listings.
- `resolve` deletes or renames the files and queues the copies.
-/

namespace ZClone.Bisync

open List Function
open Paths (Text ascii dot)
open Decimal (itoa)
open NameTransform (plainEnv)

/-! ## The winner -/

/-- The path, or 0 if the winner can not be determined. -/
def resolveNewerOlder (modifyWindow : Option Int) (t1 t2 : Int) (prefer : Prefer) : Nat :=
  if modifyWindow = none then 0
  else if t1 = zeroTime ∨ t2 = zeroTime then 0
  else if t2 < t1 then
    match prefer with
    | .newer => 1
    | .older => 2
    | _ => 0
  else if t1 < t2 then
    match prefer with
    | .newer => 2
    | .older => 1
    | _ => 0
  else 0

@[inherit_doc resolveNewerOlder]
def resolveLargerSmaller (s1 s2 : Int) (prefer : Prefer) : Nat :=
  if s1 < 0 ∨ s2 < 0 then 0
  else if s2 < s1 then
    match prefer with
    | .larger => 1
    | .smaller => 2
    | _ => 0
  else if s1 < s2 then
    match prefer with
    | .larger => 2
    | .smaller => 1
    | _ => 0
  else 0

def conflictWinner (opt : Options) (ds1 ds2 : DeltaSet) (remote1 remote2 : Text) : Nat :=
  match opt.conflictResolve with
  | .path1 => 1
  | .path2 => 2
  | .newer | .older => resolveNewerOlder opt.modifyWindow (ds1.time remote1) (ds2.time remote2) opt.conflictResolve
  | .larger | .smaller => resolveLargerSmaller (ds1.size remote1) (ds2.size remote2) opt.conflictResolve
  | .none => 0

/-- The winner, if one is to be found. -/
def winningPath (opt : Options) (ds1 ds2 : DeltaSet) (file alt : Text) : Nat :=
  if opt.conflictResolve ≠ .none then conflictWinner opt ds1 ds2 file alt else 0

/-! ## New names -/

def comma : UInt8 := 0x2C

/-- `math.MaxInt`. -/
def maxInt : Nat := 2 ^ 63 - 1

/-- The loop over the numbers from `i` on; 0 if none is free. -/
def firstFreeLoop (free : Nat → Bool) : Nat → Nat → Nat
  | 0, _ => 0
  | fuel + 1, i => if free i then i else firstFreeLoop free fuel (i + 1)

def firstFree (free : Nat → Bool) (startnum : Nat) : Nat := firstFreeLoop free (maxInt - startnum) startnum

structure NamePair where
  oldName : Text
  newName : Text
  deriving DecidableEq

structure RenamesInfo where
  path1 : NamePair
  path2 : NamePair
  deriving DecidableEq

section

variable (env : NameTransform.Env) (opt : Options) (ls1 ls2 : FileList)

/-- The parts of a name before and after its suffix. -/
def parts (remote : Text) : Text × Text :=
  if opt.suffixKeepExtension then NameTransform.splitExtension env remote else (remote, [])

def suffixName (remote suffix : Text) : Text :=
  if suffix = [] then remote else (parts env opt remote).1 ++ suffix ++ (parts env opt remote).2

/-- No name with the number is in a listing; `alt` is the alias of the file. -/
def isFree (file alt : Text) (i : Nat) : Bool :=
  let suffix1 := opt.conflictSuffix1 ++ itoa i
  let suffix2 := opt.conflictSuffix2 ++ itoa i
  (!ls1.has (suffixName env opt file suffix1) && !ls1.has (suffixName env opt alt suffix1) &&
    !ls2.has (suffixName env opt file suffix2) && !ls2.has (suffixName env opt alt suffix2)) &&
  -- make sure it still holds true with suffixes switched
  (!ls1.has (suffixName env opt file suffix2) && !ls1.has (suffixName env opt alt suffix2) &&
    !ls2.has (suffixName env opt file suffix1) && !ls2.has (suffixName env opt alt suffix1))

def numerate (startnum : Nat) (file alt : Text) : Nat := firstFree (isFree env opt ls1 ls2 file alt) startnum

/-- Like `numerate` for the suffix of one side; `lsA` is its listing. -/
def numerateSingle (lsA lsB : FileList) (suffix : Text) (startnum : Nat) (file alt : Text) : Nat :=
  firstFree (fun i =>
    !lsA.has (suffixName env opt file (suffix ++ itoa i)) && !lsA.has (suffixName env opt alt (suffix ++ itoa i)) &&
      !lsB.has (suffixName env opt file (suffix ++ itoa i)) && !lsB.has (suffixName env opt alt (suffix ++ itoa i)))
        startnum

/-- The names that are given to the two files. -/
def renamesInfo (winningPath : Nat) (file alt : Text) : RenamesInfo :=
  let suffix1 := opt.conflictSuffix1
  let suffix2 := opt.conflictSuffix2
  let r (name1 name2 : Text) : RenamesInfo := ⟨⟨file, name1⟩, ⟨alt, name2⟩⟩
  match opt.conflictLoser with
  | .skip => r (suffixName env opt file suffix1) (suffixName env opt alt suffix2)
  | .pathname =>
    -- numerate, but not if user supplied two different suffixes
    let name1 := suffixName env opt file (if suffix1 = suffix2 then suffix1 ++ itoa 1 else suffix1)
    let name2 := suffixName env opt alt (if suffix1 = suffix2 then suffix2 ++ itoa 2 else suffix2)
    match winningPath with
    | 1 => r file name2
    | 2 => r name1 alt
    | _ => r name1 name2
  | .number | .delete =>
    let num := numerate env opt ls1 ls2 1 file alt
    match winningPath with
    | 1 => r file (suffixName env opt alt (suffix2 ++ itoa num))
    | 2 => r (suffixName env opt file (suffix1 ++ itoa num)) alt
    | _ =>
      if suffix1 = suffix2 then
        let num2 := numerate env opt ls1 ls2 (num + 1) file alt
        r (suffixName env opt file (suffix1 ++ itoa num)) (suffixName env opt alt (suffix2 ++ itoa num2))
      else
        let num1 := numerateSingle env opt ls1 ls2 suffix1 1 file alt
        let num2 := numerateSingle env opt ls2 ls1 suffix2 1 file alt
        r (suffixName env opt file (suffix1 ++ itoa num1)) (suffixName env opt alt (suffix2 ++ itoa num2))

end

/-! ## Renaming and deleting -/

/-- The files of the two paths, the queued copies and the names given so far. -/
structure Work (α : Type) where
  path1 : Text → Option α
  path2 : Text → Option α
  copy1to2 : List Text := []
  copy2to1 : List Text := []
  renames : Text → Option RenamesInfo := fun _ => none

section

variable {α : Type}

/-- `operations.MoveFile` within a path. -/
def moveFile (files : Text → Option α) (dst src : Text) : Option (Text → Option α) :=
  if dst = src then some files
  else
    match files src with
    | none => none
    | some c => some (Function.update (Function.update files src none) dst (some c))

/-- `delete` of a file that is there. -/
def deleteFile (files : Text → Option α) (file : Text) : Option (Text → Option α) :=
  if (files file).isSome then some (Function.update files file none) else none

/-- `rename` for a path, with the files after it. The new name is always queued. -/
def rename (files : Text → Option α) (names : NamePair) (thisPath winningPath : Nat) : Option (Text → Option α) :=
  if winningPath = thisPath then some files else moveFile files names.newName names.oldName

variable (env : NameTransform.Env) (opt : Options) (ls1 ls2 : FileList) (ds1 ds2 : DeltaSet)

/-- There is no result if a file that is to be moved or deleted is missing. -/
def resolve (file alt : Text) (w : Work α) : Option (Work α) := do
  let winningPath := winningPath opt ds1 ds2 file alt
  let r := renamesInfo env opt ls1 ls2 winningPath file alt
  if opt.conflictLoser = .delete ∧ winningPath = 1 then
    let path2 ← deleteFile w.path2 r.path2.oldName
    let r := { r with path2.newName := [] }
    return { w with
      path2, copy1to2 := w.copy1to2.insert r.path1.oldName, renames := Function.update w.renames file (some r) }
  else if opt.conflictLoser = .delete ∧ winningPath = 2 then
    let path1 ← deleteFile w.path1 r.path1.oldName
    let r := { r with path1.newName := [] }
    return { w with
      path1, copy2to1 := w.copy2to1.insert r.path2.oldName, renames := Function.update w.renames file (some r) }
  else
    let path1 ← rename w.path1 r.path1 1 winningPath
    let path2 ← rename w.path2 r.path2 2 winningPath
    return { path1, path2,
             copy1to2 := w.copy1to2.insert r.path1.newName
             copy2to1 := w.copy2to1.insert r.path2.newName
             renames := Function.update w.renames file (some r) }

end

/-! ## The winner by size -/

/-- The version of size `a` is preferred to the one of size `b`. -/
def Beats (prefer : Prefer) (a b : Int) : Prop :=
  match prefer with
  | .larger => b < a
  | .smaller => a < b
  | _ => False

instance (prefer : Prefer) (a b : Int) : Decidable (Beats prefer a b) :=
  match prefer with
  | .larger => inferInstanceAs (Decidable (b < a))
  | .smaller => inferInstanceAs (Decidable (a < b))
  | .none | .path1 | .path2 | .newer | .older => inferInstanceAs (Decidable False)

theorem resolveLargerSmaller_spec {prefer : Prefer} (hprefer : prefer = .larger ∨ prefer = .smaller) {s1 s2 : Int}
    (h1 : 0 ≤ s1) (h2 : 0 ≤ s2) :
    (resolveLargerSmaller s1 s2 prefer = 1 ↔ Beats prefer s1 s2) ∧
      (resolveLargerSmaller s1 s2 prefer = 2 ↔ Beats prefer s2 s1) ∧
      (resolveLargerSmaller s1 s2 prefer = 0 ↔ s1 = s2) := by
  rcases hprefer with rfl | rfl
  · simp only [resolveLargerSmaller, Beats]
    rw [if_neg (by omega)]
    split_ifs <;> simp <;> omega
  · simp only [resolveLargerSmaller, Beats]
    rw [if_neg (by omega)]
    split_ifs <;> simp <;> omega

section

variable {env : NameTransform.Env} {opt : Options} {ls1 ls2 old1 old2 now1 now2 : FileList} {ds1 ds2 : DeltaSet}

/-- Where losers are deleted, the path that has won keeps its files. -/
theorem resolve_keeps_winner {α : Type} (hprefer : opt.conflictResolve ≠ .none) (hloser : opt.conflictLoser = .delete)
    {file alt : Text} {w w' : Work α} (h : resolve env opt ls1 ls2 ds1 ds2 file alt w = some w') :
    (conflictWinner opt ds1 ds2 file alt = 1 → w'.path1 = w.path1) ∧
      (conflictWinner opt ds1 ds2 file alt = 2 → w'.path2 = w.path2) := by
  rw [resolve, winningPath, if_pos hprefer] at h
  refine ⟨fun hwin => ?_, fun hwin => ?_⟩
  · rw [if_pos ⟨hloser, hwin⟩] at h
    obtain ⟨path2, -, h⟩ := Option.bind_eq_some_iff.mp h
    exact (Option.some.inj h) ▸ rfl
  · rw [if_neg (fun h => by omega), if_pos ⟨hloser, hwin⟩] at h
    obtain ⟨path1, -, h⟩ := Option.bind_eq_some_iff.mp h
    exact (Option.some.inj h) ▸ rfl

end

/-- Comparing the sizes that are kept is comparing the current ones: both are kept; or one is, and it is the larger one
or both are 0; or none is, and they are the same. -/
def SizesKept (old1 now1 old2 now2 : FileList) (file alt : Text) : Prop :=
  let s1 := now1.getSize file
  let s2 := now2.getSize alt
  if Resized old1 now1 file then Resized old2 now2 alt ∨ s2 < s1 ∨ s1 = 0 ∧ s2 = 0
  else if Resized old2 now2 alt then s1 < s2 ∨ s1 = 0 ∧ s2 = 0
  else s1 = s2

instance (old1 now1 old2 now2 : FileList) (file alt : Text) : Decidable (SizesKept old1 now1 old2 now2 file alt) := by
  unfold SizesKept
  infer_instance

/-- **The winner is the path whose current version is preferred** exactly if comparing the sizes that are kept is
comparing the current ones. -/
theorem conflictWinner_bySize {α : Type} {env : NameTransform.Env} {opt : Options} {window1 window2 : Option Int}
    {ls1 ls2 old1 old2 now1 now2 : FileList} {ds1 ds2 : DeltaSet} {file alt : Text} {d1 d2 : Delta}
    (hsize : opt.compareSize = true) (hprefer : opt.conflictResolve = .larger ∨ opt.conflictResolve = .smaller)
    (h1 : findDeltas opt window1 old1 now1 = some ds1) (h2 : findDeltas opt window2 old2 now2 = some ds2)
    (hd1 : ds1.deltas file = some d1) (hother1 : d1.other = true) (hd2 : ds2.deltas alt = some d2)
    (hother2 : d2.other = true) (hpos1 : 0 ≤ now1.getSize file) (hpos2 : 0 ≤ now2.getSize alt) :
    (((conflictWinner opt ds1 ds2 file alt = 1 ↔ Beats opt.conflictResolve (now1.getSize file) (now2.getSize alt)) ∧
      (conflictWinner opt ds1 ds2 file alt = 2 ↔ Beats opt.conflictResolve (now2.getSize alt) (now1.getSize file)) ∧
      (conflictWinner opt ds1 ds2 file alt = 0 ↔ now1.getSize file = now2.getSize alt)) ∧
    (opt.conflictLoser = .delete → ∀ w w' : Work α, resolve env opt ls1 ls2 ds1 ds2 file alt w = some w' →
      (Beats opt.conflictResolve (now1.getSize file) (now2.getSize alt) → w'.path1 = w.path1) ∧
      (Beats opt.conflictResolve (now2.getSize alt) (now1.getSize file) → w'.path2 = w.path2))) ↔
    SizesKept old1 now1 old2 now2 file alt := by
  have hkept1 := size_findDeltas hsize h1 hd1 hother1
  have hkept2 := size_findDeltas hsize h2 hd2 hother2
  have hwinner : conflictWinner opt ds1 ds2 file alt =
      resolveLargerSmaller (ds1.size file) (ds2.size alt) opt.conflictResolve := by
    rcases hprefer with h | h <;> simp only [conflictWinner, h]
  have hle1 : 0 ≤ ds1.size file := by rw [hkept1]; split_ifs <;> omega
  have hle2 : 0 ≤ ds2.size alt := by rw [hkept2]; split_ifs <;> omega
  obtain ⟨hwin1, hwin2, hwin0⟩ := resolveLargerSmaller_spec hprefer hle1 hle2
  rw [← hwinner] at hwin1 hwin2 hwin0
  have hne : opt.conflictResolve ≠ .none := by rcases hprefer with h | h <;> rw [h] <;> decide
  have hbeats : ((conflictWinner opt ds1 ds2 file alt = 1 ↔
      Beats opt.conflictResolve (now1.getSize file) (now2.getSize alt)) ∧
      (conflictWinner opt ds1 ds2 file alt = 2 ↔
        Beats opt.conflictResolve (now2.getSize alt) (now1.getSize file)) ∧
      (conflictWinner opt ds1 ds2 file alt = 0 ↔ now1.getSize file = now2.getSize alt)) ↔
      SizesKept old1 now1 old2 now2 file alt := by
    rw [hwin1, hwin2, hwin0, hkept1, hkept2]
    unfold SizesKept
    by_cases hr1 : Resized old1 now1 file <;> by_cases hr2 : Resized old2 now2 alt <;>
      rcases hprefer with h | h <;> simp [hr1, hr2, h, Beats] <;> omega
  refine ⟨fun h => hbeats.1 h.1, fun h => ⟨hbeats.2 h, fun hloser w w' hresolve => ?_⟩⟩
  obtain ⟨hkeep1, hkeep2⟩ := resolve_keeps_winner hne hloser hresolve
  exact ⟨fun hb => hkeep1 ((hbeats.2 h).1.mpr hb), fun hb => hkeep2 ((hbeats.2 h).2.1.mpr hb)⟩

/-- A listing of one file. -/
def oneFile (file : Text) (size time : Int) : FileList :=
  ⟨[file], Function.update (fun _ => none) file (some ⟨size, time, [], [], [0x2D]⟩), none⟩

/-- The larger file is kept, the smaller one deleted. -/
def keepLarger : Options :=
  { compareSize := true, compareModtime := true, compareChecksum := false, conflictResolve := .larger,
    conflictLoser := .delete }

/-- Path 1 has 20 bytes instead of 10, path 2 has its 10 bytes with a new time. -/
theorem conflictWinner_bySize_resized :
    ∃ ds1 ds2, findDeltas keepLarger (some 1) (oneFile [0x66] 10 5) (oneFile [0x66] 20 7) = some ds1 ∧
      findDeltas keepLarger (some 1) (oneFile [0x66] 10 5) (oneFile [0x66] 10 8) = some ds2 ∧
      (conflictWinner keepLarger ds1 ds2 [0x66] [0x66] = 1 ↔ Beats .larger 20 10) ∧
      ∀ w w' : Work Nat, resolve plainEnv keepLarger newFileList newFileList ds1 ds2 [0x66] [0x66] w = some w' →
        w'.path1 = w.path1 := by
  refine ⟨_, _, rfl, rfl, ?_⟩
  have hiff := @conflictWinner_bySize Nat plainEnv keepLarger (some 1) (some 1) newFileList newFileList
    (oneFile [0x66] 10 5) (oneFile [0x66] 10 5) (oneFile [0x66] 20 7) (oneFile [0x66] 10 8) _ _ [0x66] [0x66] _ _ rfl
    (.inl rfl) rfl rfl rfl (by decide +kernel) rfl (by decide +kernel) (by decide +kernel) (by decide +kernel)
  have h := hiff.2 (by decide +kernel)
  exact ⟨h.1.1, fun w w' hresolve => (h.2 rfl w w' hresolve).1 (by decide +kernel)⟩

/-- Path 1 has its 10 bytes with a new time, path 2 has 5 bytes now: the larger file is deleted. -/
theorem conflictWinner_forgets_size :
    ∃ ds1 ds2, findDeltas keepLarger (some 1) (oneFile [0x66] 10 5) (oneFile [0x66] 10 7) = some ds1 ∧
      findDeltas keepLarger (some 1) (oneFile [0x66] 10 5) (oneFile [0x66] 5 8) = some ds2 ∧
      (ds1.deltas [0x66]).any Delta.other = true ∧ (ds2.deltas [0x66]).any Delta.other = true ∧
      conflictWinner keepLarger ds1 ds2 [0x66] [0x66] = 2 ∧
      ∃ w', resolve plainEnv keepLarger newFileList newFileList ds1 ds2 [0x66] [0x66] ⟨fun _ => some 10,
        fun _ => some 5, [], [], fun _ => none⟩ = some w' ∧ w'.path1 [0x66] = none := by
  refine ⟨_, _, rfl, rfl, by decide +kernel, by decide +kernel, by decide +kernel, _, rfl, by decide +kernel⟩

/-! ## Free numbers -/

/-- The first number with `p` from `start` on. -/
structure FirstFrom (p : Nat → Prop) (start n : Nat) : Prop where
  start_le : start ≤ n
  holds : p n
  first : ∀ k, start ≤ k → p k → n ≤ k

theorem FirstFrom.unique {p : Nat → Prop} {start n m : Nat} (hn : FirstFrom p start n) (hm : FirstFrom p start m) :
    n = m :=
  le_antisymm (hn.first m hm.start_le hm.holds) (hm.first n hn.start_le hn.holds)

variable {free : Nat → Bool}

section

variable {env : NameTransform.Env} {opt : Options} {ls1 ls2 : FileList} {file alt suffix : Text} {i startnum n m : Nat}

/-- Names that are free in both listings. -/
structure Fresh (ls1 ls2 : FileList) (n : Text) : Prop where
  path1 : ls1.info n = none
  path2 : ls2.info n = none

section

variable (env : NameTransform.Env) (opt : Options)

/-- Neither listing has the name with the suffix and the number. -/
def Unused (ls1 ls2 : FileList) (remote suffix : Text) (i : Nat) : Prop :=
  ls1.has (suffixName env opt remote (suffix ++ itoa i)) = false ∧
    ls2.has (suffixName env opt remote (suffix ++ itoa i)) = false

/-- The number is free behind the suffix, for the file and for its alias. -/
def FreeFor (ls1 ls2 : FileList) (file alt suffix : Text) (i : Nat) : Prop :=
  Unused env opt ls1 ls2 file suffix i ∧ Unused env opt ls1 ls2 alt suffix i

end

theorem FreeFor.symm (h : FreeFor env opt ls1 ls2 file alt suffix i) : FreeFor env opt ls2 ls1 file alt suffix i :=
  ⟨h.1.symm, h.2.symm⟩

end

end ZClone.Bisync
