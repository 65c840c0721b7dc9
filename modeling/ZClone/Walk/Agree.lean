import Mathlib.Data.List.Perm.Basic
import ZClone.Lib.Run
import ZClone.Walk.ListR

/-!
# A directory tree from the listings of directories

`walkNDirTree`: workers take directories off a queue, list them and queue the directories they find, down to a level.

- `step` is the work on one directory of the queue, any of them.
- `Walking` is the invariant; a walk comes to its end (`exists_done`) with the `Expected` tree (`Walking.expected`).
- `walk_agree_iff` says when both ways of building a tree agree, and `walk_disagree` where they do not.
-/

namespace ZClone.Walk

open List
open Paths (Text IsName)

structure Job where
  remote : Text
  depth : Int

/-- The queue, and the directories that have been listed. -/
structure Traversal where
  jobs : List Job
  dirs : DirTree

section Code

variable (listDir : Text → List Entry)

/-- The jobs for the directories of a listing. -/
def subJobs (depth : Int) (entries : List Entry) : List Job := (entries.filterMap Entry.isDir?).map (⟨·, depth⟩)

/-- A worker takes the job `i`. -/
def step (w : Traversal) (i : Nat) : Option Traversal :=
  match w.jobs[i]? with
  | none => none
  | some job =>
    let entries := listDir job.remote
    let jobs := if job.depth ≠ 0 then subJobs (job.depth - 1) entries else []
    some ⟨w.jobs.eraseIdx i ++ jobs, w.dirs.insert job.remote entries⟩

def start (path : Text) (maxLevel : Int) : Traversal := ⟨[⟨path, maxLevel - 1⟩], ∅⟩

def Next (w w' : Traversal) : Prop := ∃ i, step listDir w i = some w'

/-- The walk from `path` has come to its end with these directories. -/
def WalkNDirTree (path : Text) (maxLevel : Int) (dirs : DirTree) : Prop :=
  Relation.ReflTransGen (Next listDir) (start path maxLevel) ⟨[], dirs⟩

end Code

/-! ## The invariant -/

section Invariant

variable {T : Tree} {startPath c : Text} {maxLevel : Int} {listDir : Text → List Entry} {w w' : Traversal}

/-- The level at which a directory is walked. -/
def depthOf (startPath : Text) (maxLevel : Int) (d : Text) : Int := maxLevel - 1 - (level d - level startPath)

structure Walking (T : Tree) (startPath : Text) (maxLevel : Int) (listDir : Text → List Entry) (w : Traversal) :
    Prop where
  queued : ∀ j ∈ w.jobs, T.Visits startPath maxLevel j.remote ∧ j.depth = depthOf startPath maxLevel j.remote ∧
    j.remote ∉ w.dirs
  nodup : (w.jobs.map Job.remote).Nodup
  visited : ∀ d ∈ w.dirs, T.Visits startPath maxLevel d ∧ get w.dirs d = listDir d
  parents : ∀ d, d ∈ w.dirs ∨ d ∈ w.jobs.map Job.remote → d = startPath ∨ parentDir d ∈ w.dirs
  root : startPath ∈ w.dirs ∨ startPath ∈ w.jobs.map Job.remote
  children : ∀ c, .dir c ∈ T.entries → T.Visits startPath maxLevel c → parentDir c ∈ w.dirs →
    c ∈ w.dirs ∨ c ∈ w.jobs.map Job.remote

theorem walking_start : Walking T startPath maxLevel listDir (start startPath maxLevel) where
  queued j hj := by
    cases mem_singleton.mp hj
    refine ⟨.inl rfl, ?_, AList.notMem_empty _⟩
    dsimp only [depthOf]
    omega
  nodup := by simp [start]
  visited d hd := absurd hd (AList.notMem_empty _)
  parents d hd := by
    rcases hd with hd | hd
    · exact absurd hd (AList.notMem_empty _)
    · exact .inl (mem_singleton.mp hd)
  root := .inr mem_cons_self
  children c _ _ hparent := absurd hparent (AList.notMem_empty _)

theorem map_subJobs (depth : Int) (entries : List Entry) :
    (subJobs depth entries).map Job.remote = entries.filterMap Entry.isDir? := (map_map ..).trans (map_id _)

theorem mem_subJobs {depth : Int} {entries : List Entry} :
    c ∈ (subJobs depth entries).map Job.remote ↔ .dir c ∈ entries := by
  rw [map_subJobs, mem_filterMap]
  constructor
  · rintro ⟨e, he, hdir⟩
    cases e with
    | object _ => cases hdir
    | dir remote =>
      cases hdir
      exact he
  · exact fun hc => ⟨_, hc, rfl⟩

/-- Where a directory of a walked directory is, and whether it is walked itself. -/
theorem visits_child (hparent : T.Visits startPath maxLevel (parentDir c)) (hc : .dir c ∈ T.entries) :
    Below startPath c ∧ depthOf startPath maxLevel c = depthOf startPath maxLevel (parentDir c) - 1 ∧
      (T.Visits startPath maxLevel c ↔ depthOf startPath maxLevel (parentDir c) ≠ 0) := by
  have hbelow : Below startPath c := T.below_of_visits hc hparent
  have hup := hbelow.level_parentDir
  refine ⟨hbelow, by rw [depthOf, depthOf]; omega, ?_⟩
  have hvisits : T.Visits startPath maxLevel c ↔ maxLevel ≤ 0 ∨ (level c : Int) < level startPath + maxLevel :=
    ⟨fun h => (h.resolve_left hbelow.ne).2.2, fun h => .inr ⟨hbelow, hc, h⟩⟩
  rw [hvisits, depthOf]
  rcases hparent with heq | ⟨hbelow', -, hinner⟩
  · rw [heq] at hup ⊢
    omega
  · have hlt := hbelow'.level_lt
    omega

/-- A directory is taken off the queue, and those directories in it that are walked are queued. -/
theorem Walking.insert (h : Walking T startPath maxLevel listDir w) {job : Job} {rest new : List Job}
    (hperm : w.jobs.Perm (job :: rest))
    (hnew : ∀ c, c ∈ new.map Job.remote ↔ .dir c ∈ T.entries ∧ parentDir c = job.remote ∧ T.Visits startPath maxLevel c)
    (hdepth : ∀ j ∈ new, j.depth = depthOf startPath maxLevel j.remote) (hnodup : (new.map Job.remote).Nodup) :
    Walking T startPath maxLevel listDir ⟨rest ++ new, w.dirs.insert job.remote (listDir job.remote)⟩ := by
  have hjob : job ∈ w.jobs := hperm.mem_iff.mpr mem_cons_self
  obtain ⟨hvisits, -, hunseen⟩ := h.queued job hjob
  have hremotes : ∀ c, c ∈ w.jobs.map Job.remote ↔ c = job.remote ∨ c ∈ rest.map Job.remote := fun c => by
    rw [(hperm.map Job.remote).mem_iff, map_cons, mem_cons]
  have hseen : ∀ c, c ∈ w.dirs.insert job.remote (listDir job.remote) ∨ c ∈ (rest ++ new).map Job.remote ↔
      (c ∈ w.dirs ∨ c ∈ w.jobs.map Job.remote) ∨ c ∈ new.map Job.remote := fun c => by
    rw [AList.mem_insert, map_append, mem_append, hremotes]
    tauto
  have hold := (hperm.map Job.remote).nodup_iff.mp h.nodup
  rw [map_cons, nodup_cons] at hold
  -- A directory in the one that is listed now has not been seen before.
  have hfresh : ∀ c ∈ new.map Job.remote, ¬ (c ∈ w.dirs ∨ c ∈ w.jobs.map Job.remote) := by
    intro c hc hold
    obtain ⟨hdir, hparent, -⟩ := (hnew c).mp hc
    have hbelow := (visits_child (hparent ▸ hvisits) hdir).1
    exact hunseen (hparent ▸ (h.parents c hold).resolve_left hbelow.ne)
  refine ⟨?_, ?_, ?_, ?_, ?_, ?_⟩
  · intro j hj
    rcases mem_append.mp hj with hj | hj
    · obtain ⟨hj₁, hj₂, hj₃⟩ := h.queued j (hperm.mem_iff.mpr (mem_cons_of_mem _ hj))
      refine ⟨hj₁, hj₂, fun hmem => ?_⟩
      rcases (AList.mem_insert _).mp hmem with heq | hmem
      · exact hold.1 (heq ▸ mem_map_of_mem hj)
      · exact hj₃ hmem
    · have hj' : j.remote ∈ new.map Job.remote := mem_map_of_mem hj
      refine ⟨((hnew _).mp hj').2.2, hdepth j hj, fun hmem => ?_⟩
      rcases (AList.mem_insert _).mp hmem with heq | hmem
      · exact hfresh _ hj' (.inr ((hremotes _).mpr (.inl heq)))
      · exact hfresh _ hj' (.inl hmem)
  · rw [map_append]
    refine hold.2.append hnodup fun c hc hc' => ?_
    exact hfresh c hc' (.inr ((hremotes c).mpr (.inr hc)))
  · intro d hd
    by_cases heq : d = job.remote
    · subst heq
      exact ⟨hvisits, get_insert_self _⟩
    · obtain ⟨hd₁, hd₂⟩ := h.visited d (((AList.mem_insert _).mp hd).resolve_left heq)
      exact ⟨hd₁, (get_insert_ne heq _).trans hd₂⟩
  · intro d hd
    rcases (hseen d).mp hd with hd | hd
    · exact (h.parents d hd).imp_right fun hd => (AList.mem_insert _).mpr (.inr hd)
    · exact .inr ((AList.mem_insert _).mpr (.inl ((hnew d).mp hd).2.1))
  · exact (hseen _).mpr (.inl h.root)
  · intro c hdir hvisits' hparent
    rw [hseen]
    rcases (AList.mem_insert _).mp hparent with heq | hparent
    · exact .inr ((hnew c).mpr ⟨hdir, heq, hvisits'⟩)
    · exact .inl (h.children c hdir hvisits' hparent)

/-- One step takes some job. -/
theorem next_cases (h : Next listDir w w') : ∃ job rest, w.jobs.Perm (job :: rest) ∧
    w' = ⟨rest ++ (if job.depth ≠ 0 then subJobs (job.depth - 1) (listDir job.remote) else []),
      w.dirs.insert job.remote (listDir job.remote)⟩ := by
  obtain ⟨i, hstep⟩ := h
  rw [step] at hstep
  cases hjob : w.jobs[i]? with rw [hjob] at hstep
  | none =>
    cases hstep
  | some job =>
    cases hstep
    obtain ⟨hi, rfl⟩ := List.getElem?_eq_some_iff.mp hjob
    exact ⟨_, _, (getElem_cons_eraseIdx_perm hi).symm, rfl⟩

theorem Walking.length_keys (h : Walking T startPath maxLevel listDir w) :
    w.dirs.keys.length ≤ T.entries.length + 1 := by
  have hsub : w.dirs.keys ⊆ startPath :: T.entries.map Entry.remote := by
    intro d hd
    rcases (h.visited d (AList.mem_keys.mpr hd)).1 with rfl | ⟨-, hdir, -⟩
    · exact mem_cons_self
    · exact mem_cons_of_mem _ (mem_map.mpr ⟨_, hdir, rfl⟩)
  have hle := (subperm_of_subset w.dirs.keys_nodup hsub).length_le
  rwa [length_cons, length_map] at hle

section

variable (hlist : ∀ d, (listDir d).Perm (T.children d))

include hlist

theorem dir_mem_listDir {d : Text} : .dir c ∈ listDir d ↔ .dir c ∈ T.entries ∧ parentDir c = d := by
  rw [(hlist d).mem_iff, Tree.children, mem_filter, decide_eq_true_eq, Entry.remote]

theorem nodup_subJobs (depth : Int) (d : Text) : ((subJobs depth (listDir d)).map Job.remote).Nodup := by
  rw [map_subJobs]
  have hentries : (listDir d).Nodup := (hlist d).nodup_iff.mpr (T.distinct.of_map.filter _)
  refine hentries.filterMap fun e e' c hc hc' => ?_
  cases e <;> cases e' <;> cases hc <;> cases hc'
  rfl

theorem Walking.step (h : Walking T startPath maxLevel listDir w) (hnext : Next listDir w w') :
    Walking T startPath maxLevel listDir w' := by
  obtain ⟨job, rest, hperm, rfl⟩ := next_cases hnext
  obtain ⟨hvisits, hdepth, -⟩ := h.queued job (hperm.mem_iff.mpr mem_cons_self)
  have hchild : ∀ {c}, .dir c ∈ T.entries → parentDir c = job.remote → Below startPath c ∧
      depthOf startPath maxLevel c = job.depth - 1 ∧ (T.Visits startPath maxLevel c ↔ job.depth ≠ 0) := by
    intro c hdir hparent
    rw [hdepth, ← hparent]
    exact visits_child (hparent ▸ hvisits) hdir
  by_cases hzero : job.depth = 0
  · rw [if_neg (not_not.mpr hzero)]
    refine h.insert hperm (fun c => ⟨nofun, fun ⟨hdir, hparent, hc⟩ => ?_⟩) nofun nodup_nil
    exact absurd hzero ((hchild hdir hparent).2.2.mp hc)
  · rw [if_pos hzero]
    refine h.insert hperm (fun c => ?_) (fun j hj => ?_) (nodup_subJobs hlist _ _)
    · rw [mem_subJobs, dir_mem_listDir hlist]
      exact ⟨fun ⟨hdir, hparent⟩ => ⟨hdir, hparent, (hchild hdir hparent).2.2.mpr hzero⟩, fun hc => ⟨hc.1, hc.2.1⟩⟩
    · have hj' := (dir_mem_listDir hlist).mp (mem_subJobs.mp (mem_map_of_mem hj))
      rw [(hchild hj'.1 hj'.2).2.1]
      obtain ⟨c, -, rfl⟩ := mem_map.mp hj
      rfl

/-- At the end every directory that is walked has been listed. -/
theorem Walking.expected {dirs : DirTree}
    (h : Walking T startPath maxLevel listDir ⟨[], dirs⟩) : T.Expected startPath maxLevel dirs := by
  have hcomplete : ∀ d, T.Visits startPath maxLevel d → d ∈ dirs := by
    intro d
    induction hn : level d using Nat.strongRecOn generalizing d with
    | _ n ih =>
      rintro (rfl | ⟨hbelow, hdir, hinner⟩)
      · exact h.root.resolve_right not_mem_nil
      · have hup := hbelow.level_parentDir
        have hparent : T.Visits startPath maxLevel (parentDir d) :=
          T.visits_parentDir hdir hbelow (hinner.imp_right Int.le_of_lt)
        exact (h.children d hdir (.inr ⟨hbelow, hdir, hinner⟩) (ih _ (by omega) _ rfl hparent)).resolve_right
          not_mem_nil
  refine ⟨fun d => ⟨fun hd => (h.visited d hd).1, hcomplete d⟩, fun d hd e => ?_⟩
  rw [(h.visited d hd).2, (hlist d).mem_iff, Tree.children, mem_filter, decide_eq_true_eq]

/-- Every walk can go on to its end. It takes a step for each directory at most, since it lists none twice. -/
theorem exists_done (h : Walking T startPath maxLevel listDir w) :
    ∃ dirs, Relation.ReflTransGen (Next listDir) w ⟨[], dirs⟩ := by
  have hprogress : ∀ w, Walking T startPath maxLevel listDir w → ¬ w.jobs = [] → ∃ w', Next listDir w w' ∧
      Walking T startPath maxLevel listDir w' ∧
      T.entries.length + 1 - w'.dirs.keys.length < T.entries.length + 1 - w.dirs.keys.length := by
    intro w h hjobs
    obtain ⟨job, rest, hjobs⟩ := exists_cons_of_ne_nil hjobs
    have hnext : Next listDir w _ := ⟨0, by rw [step, hjobs]; rfl⟩
    have h' := h.step hlist hnext
    refine ⟨_, hnext, h', ?_⟩
    have hunseen := (h.queued job (by rw [hjobs]; exact mem_cons_self)).2.2
    have hbound := h'.length_keys
    rw [AList.keys, AList.entries_insert_of_notMem hunseen, keys_cons, length_cons] at hbound ⊢
    rw [AList.keys]
    omega
  obtain ⟨⟨jobs, dirs⟩, hrun, -, hdone⟩ := Run.exists_end _ hprogress w h
  cases hdone
  exact ⟨dirs, hrun⟩

end

end Invariant

/-! ## Both ways -/

/-- The same directories with the same entries. -/
def SameTree (dt dt' : DirTree) : Prop := ∀ d, (d ∈ dt ↔ d ∈ dt') ∧ ∀ e, e ∈ get dt d ↔ e ∈ get dt' d

theorem Tree.Expected.same_iff {T : Tree} {startPath : Text} {maxLevel : Int} {dt dt' : DirTree}
    (h' : T.Expected startPath maxLevel dt') : SameTree dt dt' ↔ T.Expected startPath maxLevel dt := by
  constructor
  · refine fun h => ⟨fun d => (h d).1.trans (h'.keys d), fun d hd e => ?_⟩
    exact ((h d).2 e).trans (h'.entries d ((h d).1.mp hd) e)
  · refine fun h d => ⟨(h.keys d).trans (h'.keys d).symm, fun e => ⟨fun he => ?_, fun he => ?_⟩⟩
    · have hd := mem_of_mem_get he
      exact (h'.entries d ((h'.keys d).mpr ((h.keys d).mp hd)) e).mpr ((h.entries d hd e).mp he)
    · have hd := mem_of_mem_get he
      exact (h.entries d ((h.keys d).mpr ((h'.keys d).mp hd)) e).mpr ((h'.entries d hd e).mp he)

/-- When both ways of building a tree agree, for every order of the recursive listing and of the work on the
directories: the levels are unlimited, or nothing is cut off, or they are counted from the root and the directories of
the last level are listed before the files below them. -/
theorem walk_agree_iff (T : Tree) (startPath : Text) (maxLevel : Int) (pages : List (List Entry)) (order : List Text)
    (listDir : Text → List Entry) (hlists : T.Lists startPath pages.flatten)
    (horder : order.Perm (listed maxLevel pages).keys) (hlistDir : ∀ d, (listDir d).Perm (T.children d)) :
    (∀ w, Relation.ReflTransGen (Next listDir) (start startPath maxLevel) w →
      ∃ dirs, Relation.ReflTransGen (Next listDir) w ⟨[], dirs⟩) ∧
    ∀ dirs, WalkNDirTree listDir startPath maxLevel dirs →
      (SameTree (walkRDirTree maxLevel startPath pages order) dirs ↔
      maxLevel < 0 ∨ T.Uncut startPath maxLevel ∨ startPath = [] ∧ 1 ≤ maxLevel ∧ T.Early maxLevel pages.flatten) := by
  have hwalking : ∀ {w}, Relation.ReflTransGen (Next listDir) (start startPath maxLevel) w →
      Walking T startPath maxLevel listDir w :=
    fun hrun => Run.invariant (fun _ _ h hnext => h.step hlistDir hnext) hrun walking_start
  refine ⟨fun w hrun => exists_done hlistDir (hwalking hrun), fun dirs hrun => ?_⟩
  rw [((hwalking hrun).expected hlistDir).same_iff]
  constructor
  · intro h
    by_cases hneg : maxLevel < 0
    · exact .inl hneg
    · by_cases hroot : startPath = [] ∧ 1 ≤ maxLevel
      · exact .inr (.inr ⟨hroot.1, hroot.2, h.early hlists horder hroot.2 hroot.1⟩)
      · refine .inr (.inl (h.uncut hlists horder (by omega) ?_))
        exact (not_and_or.mp hroot).imp_right fun hlt => by omega
  · rintro (hneg | huncut | hearly)
    · exact expected_walkRDirTree hlists horder (.inl hneg)
    · exact expected_of_uncut hlists horder huncut
    · exact expected_walkRDirTree hlists horder (.inr hearly)

/-- The directory `d`. -/
def dirD : Text := [0x64]

/-- The file `d/f`. -/
def fileF : Text := [0x64, 0x2F, 0x66]

theorem below_dirD : Below dirD fileF := by
  exact ⟨[[0x64]], [[0x66]], by decide, by simp, rfl, rfl⟩

/-- One directory with one file. -/
def oneFile : Tree where
  entries := [.dir dirD, .object fileF]
  paths := by
    obtain ⟨hd, hf⟩ := below_dirD.isPath
    simpa [Entry.remote] using ⟨⟨hd, by decide⟩, hf, below_dirD.ne_nil⟩
  parents := by decide
  distinct := by decide

/-- Every listing with the file is one of the tree. -/
theorem oneFile_lists {listing : List Entry} (hsub : ∀ e ∈ listing, e ∈ oneFile.entries)
    (hfile : .object fileF ∈ listing) :
    oneFile.Lists [] listing where
  sound e he := by
    obtain ⟨hpath, hne⟩ := oneFile.paths e (hsub e he)
    exact ⟨hsub e he, hpath.below_nil hne⟩
  objects p hp _ := by
    obtain rfl : p = fileF := by simpa [oneFile] using hp
    exact hfile
  dirs d hd _ := by
    obtain rfl : d = dirD := by simpa [oneFile] using hd
    exact .inr ⟨_, hfile, below_dirD⟩

theorem oneFile_lists_dirD : oneFile.Lists dirD [.object fileF] where
  sound := by simpa [oneFile, Entry.remote] using below_dirD
  objects p hp _ := by simpa [oneFile] using hp
  dirs d hd hbelow := by
    obtain rfl : d = dirD := by simpa [oneFile] using hd
    exact absurd rfl hbelow.ne

/-- From the directory with two levels, and from the root with one level and the directory listed first. -/
theorem walk_agree_iff_oneFile :
    (∃ dirs, WalkNDirTree oneFile.children dirD 2 dirs ∧
      SameTree (walkRDirTree 2 dirD [[.object fileF]] (listed 2 [[.object fileF]]).keys) dirs) ∧
    ∃ dirs, WalkNDirTree oneFile.children [] 1 dirs ∧
      SameTree (walkRDirTree 1 [] [[.dir dirD], [.object fileF]] (listed 1 [[.dir dirD], [.object fileF]]).keys)
        dirs := by
  constructor
  · obtain ⟨dirs, hrun⟩ : ∃ dirs, [0].foldlM (step oneFile.children) (start dirD 2) = some ⟨[], dirs⟩ := ⟨_, rfl⟩
    have hwalk : WalkNDirTree oneFile.children dirD 2 dirs := Run.of_foldlM hrun
    refine ⟨dirs, hwalk,
      ((walk_agree_iff oneFile dirD 2 [[.object fileF]] _ oneFile.children oneFile_lists_dirD (.refl _)
      fun _ => .refl _).2 dirs hwalk).mpr (.inr (.inl ⟨fun p hp _ => ?_, fun d hd hbelow => ?_⟩))⟩
    · obtain rfl : p = fileF := by simpa [oneFile] using hp
      decide
    · obtain rfl : d = dirD := by simpa [oneFile] using hd
      exact absurd rfl hbelow.ne
  · obtain ⟨dirs, hrun⟩ : ∃ dirs, [0].foldlM (step oneFile.children) (start [] 1) = some ⟨[], dirs⟩ := ⟨_, rfl⟩
    have hwalk : WalkNDirTree oneFile.children [] 1 dirs := Run.of_foldlM hrun
    have hlists : oneFile.Lists [] [[Entry.dir dirD], [.object fileF]].flatten := oneFile_lists (by decide) (by decide)
    refine ⟨dirs, hwalk,
      ((walk_agree_iff oneFile [] 1 [[.dir dirD], [.object fileF]] _ oneFile.children hlists (.refl _)
      fun _ => .refl _).2 dirs hwalk).mpr (.inr (.inr ⟨rfl, by decide, fun d hd _ => ?_, ?_⟩))⟩
    · obtain rfl : d = dirD := by simpa [oneFile] using hd
      decide
    · intro pre post p d heq hbelow hlevel
      obtain ⟨rfl, hrest⟩ | ⟨pre, rfl, hrest⟩ := cons_eq_append_iff.mp heq
      · simp at hrest
      · obtain ⟨rfl, hrest⟩ | ⟨pre, rfl, hrest⟩ := cons_eq_append_iff.mp hrest
        · cases hrest
          rw [hbelow.unique below_dirD (Int.ofNat.inj hlevel)]
          exact mem_singleton_self _
        · simp at hrest

/-- The levels are counted from the root in a recursive listing, and from the start path otherwise. A file below the
last level that is listed before its directory opens the directory. And level 0 is unlimited in one way only. -/
theorem walk_disagree :
    (oneFile.Lists dirD [.object fileF] ∧ ∃ dirs, WalkNDirTree oneFile.children dirD 1 dirs ∧
      ¬ SameTree (walkRDirTree 1 dirD [[.object fileF]] (listed 1 [[.object fileF]]).keys) dirs) ∧
    (oneFile.Lists [] [.object fileF, .dir dirD] ∧ ∃ dirs, WalkNDirTree oneFile.children [] 1 dirs ∧
      ¬ SameTree (walkRDirTree 1 [] [[.object fileF, .dir dirD]] (listed 1 [[.object fileF, .dir dirD]]).keys) dirs) ∧
    oneFile.Lists [] [.dir dirD, .object fileF] ∧ ∃ dirs, WalkNDirTree oneFile.children [] 0 dirs ∧
      ¬ SameTree (walkRDirTree 0 [] [[.dir dirD, .object fileF]] (listed 0 [[.dir dirD, .object fileF]]).keys)
        dirs := by
  refine ⟨⟨oneFile_lists_dirD, ?_⟩, ⟨oneFile_lists (by decide) (by decide), ?_⟩,
    oneFile_lists (by decide) (by decide), ?_⟩
  · obtain ⟨dirs, hrun, hfile⟩ : ∃ dirs, [0].foldlM (step oneFile.children) (start dirD 1) = some ⟨[], dirs⟩ ∧
        .object fileF ∈ get dirs dirD := ⟨_, rfl, by decide⟩
    refine ⟨dirs, Run.of_foldlM hrun, fun hsame => ?_⟩
    exact absurd (((hsame dirD).2 (.object fileF)).mpr hfile) (by decide)
  · obtain ⟨dirs, hrun, hdir⟩ : ∃ dirs, [0].foldlM (step oneFile.children) (start [] 1) = some ⟨[], dirs⟩ ∧
        dirs.lookup dirD = none := ⟨_, rfl, by decide⟩
    refine ⟨dirs, Run.of_foldlM hrun, fun hsame => ?_⟩
    exact absurd ((hsame dirD).1.mp (AList.lookup_isSome.mp (by decide))) (AList.lookup_eq_none.mp hdir)
  · obtain ⟨dirs, hrun, hfile⟩ : ∃ dirs, [0, 0].foldlM (step oneFile.children) (start [] 0) = some ⟨[], dirs⟩ ∧
        .object fileF ∈ get dirs dirD := ⟨_, rfl, by decide⟩
    refine ⟨dirs, Run.of_foldlM hrun, fun hsame => ?_⟩
    exact absurd (((hsame dirD).2 (.object fileF)).mpr hfile) (by decide)

end ZClone.Walk
