import ZClone.Walk.DirTree

/-!
# Modification times set at the end of a sync

A sync records the directories whose times it has to set when all else is done, because writing into a directory changes
its time.

- `setDelayedDirModTimes` goes through the recorded directories once for each level, the deepest first. It gives the
  directories of each level that are set, in parallel; `Interleaves` are the orders in which this can happen.
- `Touched` are the directories to be set: the modified ones and, from parent to parent, those above. A recorded
  directory passes the mark on to its parent; one that is not recorded, or is left out as empty, does not.
- `setDelayedDirModTimes_spec`: each of them is set once, after all that is below it.
-/

namespace ZClone.Sync

open List
open Paths (Text ascii)
open Walk (parentDir level IsPath Below)

structure SetDirModTime where
  dir : Text
  level : Nat

structure ModTimeOptions where
  copyEmptySrcDirs : Bool
  srcEmptyDirs : List Text
  setDirModTimeAfter : Bool

structure ModTimes where
  setDirModTimes : List SetDirModTime := []
  setDirModTimesMaxLevel : Nat := 0
  modifiedDirs : List Text

/-- What `copyDirMetadata` saves for later. -/
def ModTimes.record (s : ModTimes) (dir : Text) : ModTimes :=
  { s with
    setDirModTimes := s.setDirModTimes ++ [⟨dir, level dir⟩]
    setDirModTimesMaxLevel := if level dir > s.setDirModTimesMaxLevel then level dir else s.setDirModTimesMaxLevel }

/-- Directories that are not made on the destination have no time there. -/
def ModTimeOptions.leavesOut (o : ModTimeOptions) (dir : Text) : Prop :=
  o.copyEmptySrcDirs = false ∧ dir ∈ o.srcEmptyDirs

instance (o : ModTimeOptions) (dir : Text) : Decidable (o.leavesOut dir) := inferInstanceAs (Decidable (_ ∧ _))

/-- One directory of the slice, with the modified directories and those set on this level so far. -/
def visit (o : ModTimeOptions) (level : Nat) (st : List Text × List Text) (item : SetDirModTime) :
    List Text × List Text :=
  if item.level ≠ level then st
  else if item.dir ∉ st.1 then st
  else if o.leavesOut item.dir then st
  else (if o.setDirModTimeAfter then parentDir item.dir :: st.1 else st.1, st.2 ++ [item.dir])

def setLevels (o : ModTimeOptions) (items : List SetDirModTime) : Nat → List Text → List (List Text)
  | 0, _ => []
  | n + 1, modified =>
    let st := items.foldl (visit o n) (modified, [])
    st.2 :: setLevels o items n st.1

def setDelayedDirModTimes (o : ModTimeOptions) (s : ModTimes) : List (List Text) :=
  setLevels o s.setDirModTimes (s.setDirModTimesMaxLevel + 1) s.modifiedDirs

/-- The workers of a level end in any order, and all of them before the next level begins. -/
inductive Interleaves : List (List Text) → List Text → Prop
  | nil : Interleaves [] []
  | cons {batch batch' trace : List Text} {batches : List (List Text)} (hbatch : batch'.Perm batch)
      (hrest : Interleaves batches trace) : Interleaves (batch :: batches) (batch' ++ trace)

/-- A modified directory, or one above, that is recorded and not left out. -/
inductive Touched (o : ModTimeOptions) (dirs modified : List Text) : Text → Prop
  | own {d : Text} (hd : d ∈ dirs) (hkeep : ¬o.leavesOut d) (hmodified : d ∈ modified) : Touched o dirs modified d
  | above {c : Text} (hd : parentDir c ∈ dirs) (hkeep : ¬o.leavesOut (parentDir c)) (hc : Touched o dirs modified c) :
    Touched o dirs modified (parentDir c)

variable {o : ModTimeOptions} {dirs modified m : List Text} {d : Text} {n : Nat}

theorem record_foldl (dirs : List Text) (s : ModTimes) :
    (dirs.foldl ModTimes.record s).setDirModTimes = s.setDirModTimes ++ dirs.map (fun d => ⟨d, level d⟩) ∧
      (dirs.foldl ModTimes.record s).modifiedDirs = s.modifiedDirs ∧
      s.setDirModTimesMaxLevel ≤ (dirs.foldl ModTimes.record s).setDirModTimesMaxLevel ∧
      ∀ d ∈ dirs, level d ≤ (dirs.foldl ModTimes.record s).setDirModTimesMaxLevel := by
  induction dirs generalizing s with
  | nil => simp
  | cons d dirs ih =>
    obtain ⟨hitems, hmodified, hmax, hlevels⟩ := ih (s.record d)
    have hd : s.setDirModTimesMaxLevel ≤ (s.record d).setDirModTimesMaxLevel ∧
        level d ≤ (s.record d).setDirModTimesMaxLevel := by
      rw [ModTimes.record]
      dsimp only
      split_ifs <;> omega
    refine ⟨by rw [foldl_cons, hitems]; simp [ModTimes.record], hmodified, hd.1.trans hmax, ?_⟩
    exact forall_mem_cons.mpr ⟨hd.2.trans hmax, hlevels⟩

/-- The directories of one level that are set. -/
def onLevel (o : ModTimeOptions) (n : Nat) (m dirs : List Text) : List Text :=
  dirs.filter fun d => level d = n ∧ d ∈ m ∧ ¬o.leavesOut d

/-- The marks made on a level are for the level above. -/
theorem foldl_visit (hafter : o.setDirModTimeAfter = true) {dirs : List Text} (hpaths : ∀ d ∈ dirs, IsPath d)
    (m started : List Text) :
    ∃ m', (dirs.map fun d => SetDirModTime.mk d (level d)).foldl (visit o n) (m, started) =
      (m', started ++ onLevel o n m dirs) ∧ ∀ x, x ∈ m' ↔ x ∈ m ∨ ∃ c ∈ onLevel o n m dirs, parentDir c = x := by
  induction dirs generalizing m started with
  | nil => exact ⟨m, by simp [onLevel], by simp [onLevel]⟩
  | cons d dirs ih =>
    obtain ⟨hpath, hrest⟩ := forall_mem_cons.mp hpaths
    rw [map_cons, foldl_cons]
    by_cases hset : level d = n ∧ d ∈ m ∧ ¬o.leavesOut d
    · obtain ⟨hlevel, hmem, hkeep⟩ := hset
      have hvisit : visit o n (m, started) ⟨d, level d⟩ = (parentDir d :: m, started ++ [d]) := by
        simp [visit, hlevel, hmem, hkeep, hafter]
      have hsame : onLevel o n (parentDir d :: m) dirs = onLevel o n m dirs := by
        refine filter_congr fun x hx => decide_eq_decide.mpr (and_congr_right fun hx' => and_congr_left fun _ => ?_)
        rw [mem_cons, or_iff_right_of_imp]
        rintro rfl
        by_cases hnil : d = []
        · rw [hnil] at hmem ⊢
          exact hmem
        · have := hpath.level_parentDir hnil
          omega
      have honLevel : onLevel o n m (d :: dirs) = d :: onLevel o n m dirs :=
        filter_cons_of_pos (decide_eq_true ⟨hlevel, hmem, hkeep⟩)
      obtain ⟨m', hfold, hm'⟩ := ih hrest (parentDir d :: m) (started ++ [d])
      rw [hvisit, hfold, hsame, honLevel]
      refine ⟨m', by simp, fun x => ?_⟩
      rw [hm', hsame, mem_cons]
      simp only [mem_cons, exists_eq_or_imp, eq_comm (a := x)]
      tauto
    · have hvisit : visit o n (m, started) ⟨d, level d⟩ = (m, started) := by
        unfold visit
        split_ifs with hlevel hmem hleft
        · rfl
        · rfl
        · exact absurd ⟨not_not.mp hlevel, hmem, hleft⟩ hset
        · rfl
      have honLevel : onLevel o n m (d :: dirs) = onLevel o n m dirs := filter_cons_of_neg (by simpa using hset)
      rw [hvisit, honLevel]
      exact ih hrest m started

theorem Touched.mem (h : Touched o dirs modified d) : d ∈ dirs ∧ ¬o.leavesOut d := by
  cases h with
  | own hd hkeep => exact ⟨hd, hkeep⟩
  | above hd hkeep => exact ⟨hd, hkeep⟩

theorem Touched.cases_ne (h : Touched o dirs modified d) :
    d ∈ modified ∨ ∃ c, Touched o dirs modified c ∧ c ≠ d ∧ parentDir c = d := by
  induction h with
  | own _ _ hmodified => exact .inl hmodified
  | @above c _ _ hc ih =>
    by_cases hself : c = parentDir c
    · rw [← hself]
      exact ih
    · exact .inr ⟨c, hc, hself, rfl⟩

/-- The marks before level `n - 1` is gone through. -/
def Marked (o : ModTimeOptions) (dirs modified : List Text) (n : Nat) (m : List Text) : Prop :=
  ∀ x, x ∈ m ↔ x ∈ modified ∨ ∃ c, Touched o dirs modified c ∧ n ≤ level c ∧ parentDir c = x

theorem mem_onLevel (hpaths : ∀ d ∈ dirs, IsPath d) (h : Marked o dirs modified (n + 1) m) :
    d ∈ onLevel o n m dirs ↔ Touched o dirs modified d ∧ level d = n := by
  rw [onLevel, mem_filter, decide_eq_true_iff]
  constructor
  · rintro ⟨hd, hlevel, hmem, hkeep⟩
    refine ⟨?_, hlevel⟩
    rcases (h d).mp hmem with hmodified | ⟨c, hc, -, rfl⟩
    · exact .own hd hkeep hmodified
    · exact .above hd hkeep hc
  · rintro ⟨htouched, hlevel⟩
    refine ⟨htouched.mem.1, hlevel, (h d).mpr ?_, htouched.mem.2⟩
    refine htouched.cases_ne.imp_right ?_
    rintro ⟨c, hc, hne, rfl⟩
    have hnil : c ≠ [] := by
      rintro rfl
      exact hne (by decide)
    have hup := (hpaths c hc.mem.1).level_parentDir hnil
    exact ⟨c, hc, by omega, rfl⟩

theorem interleaves_setLevels (hafter : o.setDirModTimeAfter = true) (hpaths : ∀ d ∈ dirs, IsPath d)
    (hnodup : dirs.Nodup) :
    ∀ {n : Nat} {m trace : List Text}, Marked o dirs modified n m →
    Interleaves (setLevels o (dirs.map fun d => ⟨d, level d⟩) n m) trace →
    (∀ d, d ∈ trace ↔ Touched o dirs modified d ∧ level d < n) ∧ trace.Nodup ∧
      trace.Pairwise fun x y => level y ≤ level x
  | 0, _, _, _, .nil => ⟨fun d => by simp, nodup_nil, .nil⟩
  | n + 1, m, _, hmarked, hrun => by
    obtain ⟨m', hfold, hm'⟩ := foldl_visit (o := o) (n := n) hafter hpaths m []
    rw [setLevels, hfold, nil_append] at hrun
    cases hrun with
    | @cons _ batch trace _ hbatch hrest =>
    have hnext : Marked o dirs modified n m' := by
      intro x
      rw [hm', hmarked]
      simp only [mem_onLevel hpaths hmarked]
      constructor
      · rintro ((hx | ⟨c, hc, hlevel, hup⟩) | ⟨c, ⟨hc, hlevel⟩, hup⟩)
        · exact .inl hx
        · exact .inr ⟨c, hc, by omega, hup⟩
        · exact .inr ⟨c, hc, by omega, hup⟩
      · rintro (hx | ⟨c, hc, hlevel, hup⟩)
        · exact .inl (.inl hx)
        · rcases Nat.eq_or_lt_of_le hlevel with heq | hlt
          · exact .inr ⟨c, ⟨hc, heq.symm⟩, hup⟩
          · exact .inl (.inr ⟨c, hc, hlt, hup⟩)
    obtain ⟨hmem, hnodup', hpairwise⟩ := interleaves_setLevels hafter hpaths hnodup hnext hrest
    have hbatch' : ∀ d, d ∈ batch ↔ Touched o dirs modified d ∧ level d = n := fun d =>
      hbatch.mem_iff.trans (mem_onLevel hpaths hmarked)
    refine ⟨fun d => ?_, ?_, ?_⟩
    · rw [mem_append, hbatch', hmem, ← and_or_left]
      exact and_congr_right fun _ => by omega
    · refine nodup_append.mpr ⟨hbatch.nodup_iff.mpr (hnodup.filter _), hnodup', ?_⟩
      rintro x hx y hy rfl
      have hlevel := ((hbatch' x).mp hx).2
      have hlevel' := ((hmem x).mp hy).2
      omega
    · refine pairwise_append.mpr ⟨pairwise_of_forall_mem_list fun x hx y hy => ?_, hpairwise, fun x hx y hy => ?_⟩
      · rw [((hbatch' x).mp hx).2, ((hbatch' y).mp hy).2]
      · rw [((hbatch' x).mp hx).2]
        exact Nat.le_of_lt ((hmem y).mp hy).2

/-- Each directory to be set is set once, and after all that is below it. -/
theorem setDelayedDirModTimes_spec (o : ModTimeOptions) (dirs modified trace : List Text)
    (hafter : o.setDirModTimeAfter = true) (hpaths : ∀ d ∈ dirs, IsPath d) (hnodup : dirs.Nodup)
    (hrun : Interleaves (setDelayedDirModTimes o (dirs.foldl ModTimes.record { modifiedDirs := modified })) trace) :
    (∀ d, d ∈ trace ↔ Touched o dirs modified d) ∧ trace.Nodup ∧ trace.Pairwise fun d p => ¬Below d p := by
  obtain ⟨hitems, hmodified, -, hmax⟩ := record_foldl dirs { modifiedDirs := modified }
  rw [setDelayedDirModTimes, hitems, hmodified, nil_append] at hrun
  generalize (dirs.foldl ModTimes.record { modifiedDirs := modified }).setDirModTimesMaxLevel = top at hmax hrun
  have hbound : ∀ {d}, Touched o dirs modified d → level d < top + 1 := fun h => Nat.lt_succ_of_le (hmax _ h.mem.1)
  have hstart : Marked o dirs modified (top + 1) modified := by
    refine fun x => (or_iff_left ?_).symm
    rintro ⟨c, hc, hlevel, -⟩
    exact absurd (hbound hc) (Nat.not_lt.mpr hlevel)
  obtain ⟨hmem, hnodup', hpairwise⟩ := interleaves_setLevels hafter hpaths hnodup hstart hrun
  refine ⟨fun d => (hmem d).trans (and_iff_left_of_imp hbound), hnodup', hpairwise.imp fun hle hbelow => ?_⟩
  exact absurd hbelow.level_lt (Nat.not_lt.mpr hle)

/-- A directory above a modified one is set after it; those of one level in any order. -/
theorem setDelayedDirModTimes_parent : ∃ trace,
    Interleaves (setDelayedDirModTimes ⟨false, [], true⟩ ([ascii ['a'], ascii ['a', '/', 'b'], ascii ['c']].foldl
      ModTimes.record { modifiedDirs := [ascii ['a', '/', 'b'], ascii ['c']] })) trace ∧
    trace = [ascii ['a', '/', 'b'], ascii ['c'], ascii ['a']] ∧ trace.Nodup ∧ trace.Pairwise fun d p => ¬Below d p := by
  have hpaths : ∀ d ∈ [ascii ['a'], ascii ['a', '/', 'b'], ascii ['c']], IsPath d := by
    simp only [forall_mem_cons]
    exact ⟨⟨[ascii ['a']], by decide, rfl⟩, ⟨[ascii ['a'], ascii ['b']], by decide, rfl⟩,
      ⟨[ascii ['c']], by decide, rfl⟩, by simp⟩
  have hrun := Interleaves.cons (.refl [ascii ['a', '/', 'b']])
    (.cons (.swap (ascii ['a']) (ascii ['c']) []) (.cons (.refl []) .nil))
  exact ⟨_, hrun, rfl, (setDelayedDirModTimes_spec ⟨false, [], true⟩ _ [ascii ['a', '/', 'b'], ascii ['c']] _ rfl hpaths
    (by decide) hrun).2⟩

/-- A directory left out as empty is not set; nor is one above a modified directory if one between them is not
recorded. -/
theorem setDelayedDirModTimes_leaves : setDelayedDirModTimes ⟨false, [ascii ['a']], true⟩
        ([ascii ['a']].foldl ModTimes.record { modifiedDirs := [ascii ['a']] }) = [[], []] ∧
      setDelayedDirModTimes ⟨false, [], true⟩
        ([ascii ['a'], ascii "a/b/c".toList].foldl ModTimes.record
          { modifiedDirs := [ascii "a/b/c".toList] }) = [[ascii "a/b/c".toList], [], [], []] := by
  decide +kernel

end ZClone.Sync
