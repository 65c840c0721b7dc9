import Mathlib.Data.List.Sort
import ZClone.Sync.Basic
import ZClone.Walk.Parents

/-!
# Empty directories of a sync

A sync notes the source directories that may be empty, and removes directories it has emptied.

- `srcOnly` and `matched` are the callbacks of a march, with the calls of `markParentNotEmpty` they make. Each call
  holds a lock, so that concurrent jobs make a sequence of calls.
- `mem_srcEmptyDirs` says which directories are noted in the end, for every order that reports a directory before what
  is inside it.
- `deleteEmptyDirectories` goes through the directories in reverse order of their names. A directory comes after all
  that is inside it, and goes if all that is inside it goes (`mem_dirs_deleteEmptyDirectories`).
-/

namespace ZClone.Sync

open List
open Paths (Text ascii)
open Walk (parentDir)

/-! ## Noting empty source directories -/

section Marking

structure MarkOptions where
  deleteMode : DeleteMode
  copyEmptySrcDirs : Bool
  doMove : Bool
  deleteEmptySrcDirs : Bool
  /-- The name transforms of directories, if there are any. -/
  transform : Option (Text → Text)

structure Marks where
  srcEmptyDirs : List Text := []
  srcMoveEmptyDirs : List Text := []

/-- All parents of an object are marked as not empty. -/
def unmarkParents : Nat → Text → List Text → List Text
  | 0, _, dirs => dirs
  | fuel + 1, dir, dirs =>
    let dirs := dirs.filter (· ≠ dir)
    if dir = [] ∨ dir = [Paths.slash] then dirs else unmarkParents fuel (parentDir dir) dirs

section

variable (o : MarkOptions) (m : Marks)

def markParentNotEmpty : Walk.Entry → Marks
  | .object remote =>
    { m with srcEmptyDirs := unmarkParents ((parentDir remote).length + 1) (parentDir remote) m.srcEmptyDirs }
  | .dir remote =>
    let srcEmptyDirs := remote :: m.srcEmptyDirs
    { srcEmptyDirs := if o.copyEmptySrcDirs then srcEmptyDirs.filter (· ≠ parentDir remote) else srcEmptyDirs
      srcMoveEmptyDirs :=
        if o.doMove && o.deleteEmptySrcDirs then remote :: m.srcMoveEmptyDirs else m.srcMoveEmptyDirs }

/-- `copyDirMetadata`, as far as it marks directories. `newDst` is the directory it has made or found, if any. -/
def copyDirMetadata (src : Text) (newDst : Option Text) : Marks :=
  if o.transform.isSome && newDst.any (· ≠ src) then markParentNotEmpty o m (.dir src) else m

def srcOnly (src : Walk.Entry) (newDst : Option Text) : Marks :=
  if o.deleteMode = .only then m
  else
    match src with
    | .object remote => markParentNotEmpty o m (.object remote)
    | .dir remote => copyDirMetadata o (markParentNotEmpty o m (.dir remote)) remote newDst

def matched (dst src : Walk.Entry) (newDst : Option Text) : Marks :=
  match src with
  | .object remote => markParentNotEmpty o m (.object remote)
  | .dir remote =>
    let remote := (o.transform.getD id) remote
    let m := if o.transform.isNone || remote ≠ dst.remote then markParentNotEmpty o m (.dir remote) else m
    match dst with
    | .object _ => m
    | .dir _ => copyDirMetadata o m remote newDst

end

/-- A callback of the march, with what `copyDirMetadata` comes to. -/
inductive Report where
  | srcOnly (src : Walk.Entry) (newDst : Option Text)
  | matched (dst src : Walk.Entry) (newDst : Option Text)

def Report.src : Report → Walk.Entry
  | .srcOnly src _ => src
  | .matched _ src _ => src

def Report.apply (o : MarkOptions) (m : Marks) : Report → Marks
  | .srcOnly src newDst => Sync.srcOnly o m src newDst
  | .matched dst src newDst => Sync.matched o m dst src newDst

/-- All callbacks of a march, in the order in which they take the lock. -/
def mark (o : MarkOptions) (reports : List Report) : Marks := reports.foldl (fun m r => r.apply o m) {}

/-- The path `p` is inside the directory `d` or further down. -/
def Beneath (d p : Text) : Prop := ∃ n, Nat.repeat parentDir (n + 1) p = d

/-- The entry `e` shows that the directory `d` is not empty. -/
def Fills (o : MarkOptions) (e : Walk.Entry) (d : Text) : Prop :=
  (∃ remote, e = .object remote ∧ Beneath d remote) ∨ ∃ remote, e = .dir remote ∧ o.copyEmptySrcDirs ∧
    parentDir remote = d

variable {o : MarkOptions} {m : Marks} {d : Text} {e : Walk.Entry}

theorem mem_unmarkParents : ∀ {fuel : Nat} {dir : Text} {dirs : List Text}, dir.length < fuel →
    (d ∈ unmarkParents fuel dir dirs ↔ d ∈ dirs ∧ ∀ n, Nat.repeat parentDir n dir ≠ d)
  | 0, _, _, h => absurd h (Nat.not_lt_zero _)
  | fuel + 1, dir, dirs, h => by
    rw [unmarkParents]
    by_cases hend : dir = [] ∨ dir = [Paths.slash]
    · have hfix : parentDir dir = dir := by rcases hend with rfl | rfl <;> decide
      have hrepeat : ∀ n, Nat.repeat parentDir n dir = dir := by
        intro n
        induction n with
        | zero => rfl
        | succ n ih => exact (congrArg parentDir ih).trans hfix
      rw [if_pos hend, mem_filter, decide_eq_true_iff]
      exact and_congr_right fun _ => ⟨fun h n => (hrepeat n).symm ▸ h.symm, fun h => (h 0).symm⟩
    · obtain ⟨hne, hroot⟩ := not_or.mp hend
      have hlt := Walk.length_parentDir_lt hne hroot
      rw [if_neg hend, mem_unmarkParents (by omega), mem_filter, decide_eq_true_iff, and_assoc]
      refine and_congr_right fun _ => ⟨fun ⟨hself, hup⟩ n => ?_, fun hall => ⟨(hall 0).symm, fun n => ?_⟩⟩
      · cases n with
        | zero => exact hself.symm
        | succ n => exact Walk.repeat_parentDir_succ dir n ▸ hup n
      · exact Walk.repeat_parentDir_succ dir n ▸ hall (n + 1)

/-- One call adds a directory and takes away those it shows not to be empty. -/
theorem mem_markParentNotEmpty :
    d ∈ (markParentNotEmpty o m e).srcEmptyDirs ↔ (d ∈ m.srcEmptyDirs ∨ e = .dir d) ∧ ¬Fills o e d := by
  cases e with
  | object remote =>
    have hfills : Fills o (.object remote) d ↔ ∃ n, Nat.repeat parentDir n (parentDir remote) = d := by
      simp [Fills, Beneath, Walk.repeat_parentDir_succ]
    rw [markParentNotEmpty, mem_unmarkParents (Nat.lt_succ_self _), hfills, not_exists]
    simp
  | dir remote =>
    have hfills : Fills o (.dir remote) d ↔ o.copyEmptySrcDirs ∧ parentDir remote = d := by simp [Fills]
    have hadd : d ∈ remote :: m.srcEmptyDirs ↔ d ∈ m.srcEmptyDirs ∨ Walk.Entry.dir remote = .dir d := by
      rw [mem_cons, or_comm, Walk.Entry.dir.injEq, eq_comm]
    rw [hfills, ← hadd, markParentNotEmpty]
    by_cases hcopy : o.copyEmptySrcDirs
    · simp only [hcopy, if_true, true_and, mem_filter, decide_eq_true_iff]
      exact and_congr_right fun _ => not_congr eq_comm
    · simp [hcopy]

/-- Without transforms, a callback of a pass that copies marks its source entry. -/
theorem Report.apply_eq (hmode : o.deleteMode ≠ .only) (hplain : o.transform = none) (r : Report) :
    (r.apply o m) = markParentNotEmpty o m r.src := by
  cases r with
  | srcOnly src newDst => cases src <;> simp [Report.apply, Report.src, Sync.srcOnly, copyDirMetadata, hmode, hplain]
  | matched dst src newDst =>
    cases src <;> cases dst <;> simp [Report.apply, Report.src, Sync.matched, copyDirMetadata, hplain]

theorem mem_foldl_mark : ∀ {entries : List Walk.Entry} {m : Marks},
    entries.Pairwise (fun e e' => ∀ d, e' = .dir d → ¬Beneath d e.remote) →
    (d ∈ (entries.foldl (markParentNotEmpty o) m).srcEmptyDirs ↔
      (d ∈ m.srcEmptyDirs ∨ .dir d ∈ entries) ∧ ∀ e ∈ entries, ¬Fills o e d)
  | [], m, _ => by simp
  | e :: entries, m, horder => by
    obtain ⟨hfirst, hrest⟩ := pairwise_cons.mp horder
    -- what fills a directory comes after it
    have hlater : .dir d ∈ entries → ¬Fills o e d := by
      rintro hd (⟨remote, rfl, hbeneath⟩ | ⟨remote, rfl, -, hparent⟩)
      · exact hfirst _ hd d rfl hbeneath
      · exact hfirst _ hd d rfl ⟨0, hparent⟩
    rw [foldl_cons, mem_foldl_mark hrest, mem_markParentNotEmpty, forall_mem_cons, mem_cons,
      eq_comm (a := Walk.Entry.dir d)]
    tauto

/-- The directories noted in the end: those reported that have no object beneath them and, if empty directories are
copied, no directory inside them. -/
theorem mem_srcEmptyDirs (o : MarkOptions) (reports : List Report) (hmode : o.deleteMode ≠ .only)
    (hplain : o.transform = none)
    (horder : (reports.map Report.src).Pairwise fun e e' => ∀ d, e' = .dir d → ¬Beneath d e.remote) (d : Text) :
    d ∈ (mark o reports).srcEmptyDirs ↔
      .dir d ∈ reports.map Report.src ∧ (∀ remote, .object remote ∈ reports.map Report.src → ¬Beneath d remote) ∧
        (o.copyEmptySrcDirs → ∀ c, .dir c ∈ reports.map Report.src → parentDir c ≠ d) := by
  have hfold : mark o reports = (reports.map Report.src).foldl (markParentNotEmpty o) {} := by
    rw [mark, foldl_map]
    simp only [Report.apply_eq hmode hplain]
  rw [hfold, mem_foldl_mark horder]
  refine and_congr (by simp) ⟨fun h => ⟨fun remote hremote hbeneath => ?_, fun hcopy c hc hparent => ?_⟩, ?_⟩
  · exact h _ hremote (.inl ⟨remote, rfl, hbeneath⟩)
  · exact h _ hc (.inr ⟨c, rfl, hcopy, hparent⟩)
  · rintro ⟨hobjects, hdirs⟩ e he (⟨remote, rfl, hbeneath⟩ | ⟨c, rfl, hcopy, hparent⟩)
    · exact hobjects remote he hbeneath
    · exact hdirs hcopy c he hparent

/-- A directory with an object beside it stays noted. -/
theorem mem_srcEmptyDirs_beside :
    ascii ['a'] ∈ (mark ⟨.off, false, false, false, none⟩
      [.srcOnly (.dir (ascii ['a'])) none, .srcOnly (.object (ascii ['b'])) none]).srcEmptyDirs := by
  refine (mem_srcEmptyDirs _ _ (by decide) rfl ?_ _).mpr ⟨by decide, ?_, fun hcopy => absurd hcopy (by decide)⟩
  · simp [Report.src]
  · rintro remote hremote ⟨n, hn⟩
    have hb : remote = ascii ['b'] := by simpa [Report.src] using hremote
    rw [← Walk.repeat_parentDir_succ, hb, show parentDir (ascii ['b']) = [] by decide, Walk.repeat_parentDir_nil] at hn
    exact absurd hn (by decide)

/-- If empty directories are copied, a directory with an empty directory inside is not noted. -/
theorem srcEmptyDirs_copyEmpty :
    let reports := [Report.srcOnly (.dir (ascii ['a'])) none, .srcOnly (.dir (ascii ['a', '/', 'b'])) none]
    (∀ r ∈ reports, r.src.isDir?.isSome) ∧ .dir (ascii ['a']) ∈ reports.map Report.src ∧
      ascii ['a'] ∉ (mark ⟨.off, true, false, false, none⟩ reports).srcEmptyDirs := by
  decide +kernel

end Marking

/-! ## Removing empty directories -/

section Deleting

/-- The directories and the files of a remote. -/
structure Tree where
  dirs : List Text
  files : List Text

/-- What `deleteEmptyDirectories` depends on besides the tree: the errors counted so far, the directories that
`SkipDestructive` holds back and those that the backend fails to remove. -/
structure DeleteEnv where
  errored : Bool
  ignoreErrors : Bool
  skip : Text → Bool
  fails : Text → Bool

/-- The path `p` begins with the directory `d`. -/
def Inside (d p : Text) : Prop := d = [] ∧ p ≠ [] ∨ d ++ [Paths.slash] <+: p

instance (d p : Text) : Decidable (Inside d p) := inferInstanceAs (Decidable (_ ∨ _))

/-- The backend's `Rmdir` removes a directory that is there and has nothing in it. -/
def rmdir (env : DeleteEnv) (t : Tree) (d : Text) : Except Err Tree :=
  if env.fails d then .error (.other "failed to remove directory")
  else if d ∉ t.dirs then .error (.other "directory not found")
  else if ∃ p ∈ t.dirs ++ t.files, Inside d p then .error (.other "directory not empty")
  else .ok { t with dirs := t.dirs.filter (· ≠ d) }

def tryRmdir (env : DeleteEnv) (t : Tree) (d : Text) : Except Err Tree := if env.skip d then .ok t else rmdir env t d

def notDeletingDirs : Err := .other "not deleting directories as there were IO errors"

/-- The directories in the order in which they are tried. The keys of the map are the names, so that the sort has no
ties. -/
def deleteOrder (entries : List Walk.Entry) : List Text :=
  (entries.insertionSort fun e e' => e.remote ≤ e'.remote).reverse.filterMap Walk.Entry.isDir?

/-- Failures are only counted for the log. -/
def deleteEmptyDirectories (env : DeleteEnv) (entries : List Walk.Entry) (t : Tree) : Option Err × Tree :=
  if entries = [] then (none, t)
  else if env.errored && !env.ignoreErrors then (some notDeletingDirs, t)
  else (none, (deleteOrder entries).foldl (fun t d => (tryRmdir env t d).toOption.getD t) t)

variable {env : DeleteEnv} {entries : List Walk.Entry} {t : Tree} {d p q : Text}

theorem Inside.trans (h : Inside d p) (h' : Inside p q) : Inside d q := by
  have hne : ∀ {a b : Text}, a ++ [Paths.slash] <+: b → b ≠ [] := by
    rintro a b hprefix rfl
    exact absurd (prefix_nil.mp hprefix) (by simp)
  rcases h with ⟨rfl, hp⟩ | h
  · exact .inl ⟨rfl, h'.elim (fun h' => h'.2) hne⟩
  · rcases h' with ⟨rfl, -⟩ | h'
    · exact absurd rfl (hne h)
    · exact .inr (h.trans ((prefix_append p [Paths.slash]).trans h'))

theorem not_inside_self : ¬Inside d d := by
  rintro (⟨rfl, h⟩ | h)
  · exact h rfl
  · have hle := h.length_le
    rw [length_append, length_singleton] at hle
    omega

/-- A directory sorts before all that is inside it, whatever bytes the names have. -/
theorem Inside.le (h : Inside d p) : d ≤ p := by
  rcases h with ⟨rfl, -⟩ | h
  · exact nil_le p
  · exact ((prefix_append d [Paths.slash]).trans h).le

theorem mem_deleteOrder : d ∈ deleteOrder entries ↔ .dir d ∈ entries := by
  rw [deleteOrder, mem_filterMap]
  constructor
  · rintro ⟨e, he, hdir⟩
    cases e with
    | object _ => cases hdir
    | dir remote =>
      cases hdir
      exact (mem_insertionSort _).mp (mem_reverse.mp he)
  · exact fun h => ⟨_, mem_reverse.mpr ((mem_insertionSort _).mpr h), rfl⟩

/-- No directory is tried before one that is inside it. -/
theorem deleteOrder_pairwise (entries : List Walk.Entry) : (deleteOrder entries).Pairwise fun d p => ¬Inside d p := by
  have hsorted : (entries.insertionSort fun e e' => e.remote ≤ e'.remote).Pairwise fun e e' =>
      e.remote ≤ e'.remote := by
    exact List.pairwise_insertionSort _ entries
  refine List.Pairwise.filterMap _ (fun e e' hle d hd p hp hinside => ?_) (List.pairwise_reverse.mpr hsorted)
  have hd' : e.remote = d := by
    cases e <;> cases hd
    rfl
  have hp' : e'.remote = p := by
    cases e' <;> cases hp
    rfl
  rw [hd', hp'] at hle
  exact not_inside_self (List.le_antisymm hle hinside.le ▸ hinside)

/-- All that is inside the directory, and the directory itself, is to be removed, and nothing keeps it from being
removed. -/
def Removable (env : DeleteEnv) (entries : List Walk.Entry) (t : Tree) (d : Text) : Prop :=
  ∀ p ∈ t.dirs, p = d ∨ Inside d p → .dir p ∈ entries ∧ env.skip p = false ∧ env.fails p = false

theorem mem_tryRmdir (env : DeleteEnv) (hfiles : ∀ f ∈ t.files, ¬Inside d f) :
    ((tryRmdir env t d).toOption.getD t).files = t.files ∧
    (p ∈ ((tryRmdir env t d).toOption.getD t).dirs ↔
      p ∈ t.dirs ∧ ¬(p = d ∧ env.skip d = false ∧ env.fails d = false ∧ ∀ q ∈ t.dirs, ¬Inside d q)) := by
  unfold tryRmdir rmdir
  split_ifs with hskip hfails hthere hfull
  · exact ⟨rfl, by simp [Except.toOption, hskip]⟩
  · exact ⟨rfl, by simp [Except.toOption, hfails]⟩
  · refine ⟨rfl, (and_iff_left_of_imp ?_).symm⟩
    rintro - ⟨-, -, -, hnone⟩
    obtain ⟨q, hq, hinside⟩ := hfull
    exact (mem_append.mp hq).elim (fun hq => hnone q hq hinside) fun hq => hfiles q hq hinside
  · refine ⟨rfl, ?_⟩
    have hempty : ∀ q ∈ t.dirs, ¬Inside d q := fun q hq hinside => hfull ⟨q, mem_append_left _ hq, hinside⟩
    change p ∈ t.dirs.filter _ ↔ _
    rw [mem_filter, decide_eq_true_iff]
    exact and_congr_right fun _ => not_congr
      ⟨fun h => ⟨h, by simpa using hskip, by simpa using hfails, hempty⟩, fun h => h.1⟩
  · refine ⟨rfl, (and_iff_left_of_imp ?_).symm⟩
    rintro hp ⟨rfl, -⟩
    exact hthere hp

/-- The tree after the directories of `tried`. -/
structure Deleted (env : DeleteEnv) (entries : List Walk.Entry) (t : Tree) (tried : List Text) (t' : Tree) : Prop where
  files : t'.files = t.files
  dirs : ∀ p, p ∈ t'.dirs ↔ p ∈ t.dirs ∧ ¬(p ∈ tried ∧ Removable env entries t p)

theorem Deleted.step {tried rest : List Text} {t' : Tree} (h : Deleted env entries t tried t')
    (horder : deleteOrder entries = tried ++ d :: rest) (hfiles : ∀ f ∈ t.files, ¬Inside d f) :
    Deleted env entries t (tried ++ [d]) ((tryRmdir env t' d).toOption.getD t') := by
  have hmem := fun p => mem_tryRmdir env (t := t') (d := d) (p := p) (h.files ▸ hfiles)
  refine ⟨(hmem d).1.trans h.files, fun p => ?_⟩
  rw [(hmem p).2, h.dirs, and_assoc]
  refine and_congr_right fun hp => ?_
  by_cases hpd : p = d
  · subst hpd
    have hset : .dir p ∈ entries := mem_deleteOrder.mp (by rw [horder]; simp)
    -- removed now or before, just if it is to go
    suffices Removable env entries t p ↔ (p ∈ tried ∧ Removable env entries t p) ∨
        env.skip p = false ∧ env.fails p = false ∧ ∀ q ∈ t'.dirs, ¬Inside p q by
      rw [mem_append, mem_singleton]
      tauto
    refine ⟨fun hgo => .inr ?_, fun h' => h'.elim (fun h' => h'.2) ?_⟩
    · obtain ⟨-, hskip, hfails⟩ := hgo p hp (.inl rfl)
      refine ⟨hskip, hfails, fun q hq hinside => ((h.dirs q).mp hq).2 ⟨?_, ?_⟩⟩
      · have hbefore : q ∈ tried ++ p :: rest :=
          horder ▸ mem_deleteOrder.mpr (hgo q ((h.dirs q).mp hq).1 (.inr hinside)).1
        have hlater := (pairwise_cons.mp (pairwise_append.mp (horder ▸ deleteOrder_pairwise entries)).2.1).1
        rcases mem_append.mp hbefore with hq' | hq'
        · exact hq'
        · rcases mem_cons.mp hq' with rfl | hq'
          · exact absurd hinside not_inside_self
          · exact absurd hinside (hlater q hq')
      · rintro x hx (rfl | hxq)
        · exact hgo x hx (.inr hinside)
        · exact hgo x hx (.inr (hinside.trans hxq))
    · rintro ⟨hskip, hfails, hnone⟩ q hq (rfl | hinside)
      · exact ⟨hset, hskip, hfails⟩
      · have hgone : q ∈ tried ∧ Removable env entries t q := by
          by_contra hstays
          exact hnone q ((h.dirs q).mpr ⟨hq, hstays⟩) hinside
        exact hgone.2 q hq (.inl rfl)
  · simp [hpd]

theorem deleted_foldl (env : DeleteEnv) (hfiles : ∀ d, .dir d ∈ entries → ∀ f ∈ t.files, ¬Inside d f) :
    ∀ (rest tried : List Text) {t' : Tree}, deleteOrder entries = tried ++ rest → Deleted env entries t tried t' →
    Deleted env entries t (tried ++ rest) (rest.foldl (fun t d => (tryRmdir env t d).toOption.getD t) t')
  | [], tried, t', _, h => by rwa [append_nil]
  | d :: rest, tried, t', horder, h => by
    have hd : .dir d ∈ entries := mem_deleteOrder.mp (by rw [horder]; simp)
    have hrun := deleted_foldl env hfiles rest (tried ++ [d]) (by rw [horder]; simp)
      (h.step horder (hfiles d hd))
    rwa [append_assoc] at hrun

/-- Unless errors stop it, `deleteEmptyDirectories` removes just the directories of the set that have nothing inside but
directories of the set, none of them held back or failing. It tries all of the set, each after all that is inside it. -/
theorem mem_dirs_deleteEmptyDirectories (env : DeleteEnv) (entries : List Walk.Entry) (t : Tree)
    (hfiles : ∀ d, .dir d ∈ entries → ∀ f ∈ t.files, ¬Inside d f) :
    let t' := (deleteEmptyDirectories env entries t).2
    t'.files = t.files ∧
      (∀ p, p ∈ t'.dirs ↔ p ∈ t.dirs ∧ ¬((env.errored = false ∨ env.ignoreErrors = true) ∧ Removable env entries t p)) ∧
      (∀ d, d ∈ deleteOrder entries ↔ .dir d ∈ entries) ∧ (deleteOrder entries).Pairwise fun d p => ¬Inside d p := by
  intro t'
  have horder := deleteOrder_pairwise entries
  have hone : ∀ p ∈ t.dirs, Removable env entries t p → .dir p ∈ entries := fun p hp h => (h p hp (.inl rfl)).1
  by_cases hnil : entries = []
  · have ht' : t' = t := by simp [t', deleteEmptyDirectories, hnil]
    rw [ht']
    refine ⟨rfl, fun p => (and_iff_left_of_imp fun hp h => ?_).symm, fun _ => mem_deleteOrder, horder⟩
    exact absurd (hone p hp h.2) (by simp [hnil])
  · by_cases hstop : env.errored && !env.ignoreErrors
    · have ht' : t' = t := by simp [t', deleteEmptyDirectories, hnil, hstop]
      rw [ht']
      refine ⟨rfl, fun p => (and_iff_left_of_imp fun _ h => ?_).symm, fun _ => mem_deleteOrder, horder⟩
      rcases h.1 with h | h <;> simp [h] at hstop
    · have hrun : env.errored = false ∨ env.ignoreErrors = true := by
        cases herrored : env.errored
        · exact .inl rfl
        · exact .inr (by simpa [herrored] using hstop)
      have hdeleted := deleted_foldl env hfiles (deleteOrder entries) [] rfl ⟨rfl, fun p => by simp⟩
      have ht' : t' = (deleteOrder entries).foldl (fun t d => (tryRmdir env t d).toOption.getD t) t := by
        simp [t', deleteEmptyDirectories, hnil, hstop]
      rw [ht']
      refine ⟨hdeleted.files, fun p => ?_, fun _ => mem_deleteOrder, horder⟩
      rw [hdeleted.dirs, nil_append, mem_deleteOrder]
      refine and_congr_right fun hp => not_congr ⟨fun h => ⟨hrun, h.2⟩, fun h => ⟨hone p hp h.2, h.2⟩⟩

/-- The directory `a-b` sorts between `a` and `a/b`. -/
theorem mem_dirs_deleteEmptyDirectories_nested :
    let entries := [Walk.Entry.dir (ascii ['a']), .dir (ascii ['a', '-', 'b']), .dir (ascii ['a', '/', 'b'])]
    let t : Tree := ⟨[ascii ['a'], ascii ['a', '-', 'b'], ascii ['a', '/', 'b']], [ascii ['f']]⟩
    ascii ['a'] ∉ (deleteEmptyDirectories ⟨false, false, fun _ => false, fun _ => false⟩ entries t).2.dirs := by
  intro entries t h
  have hnames : ∀ e ∈ entries, ∀ f ∈ t.files, ¬Inside e.remote f := by decide +kernel
  have hspec := mem_dirs_deleteEmptyDirectories ⟨false, false, fun _ => false, fun _ => false⟩ entries t
    fun d hd f hf => hnames _ hd f hf
  refine ((hspec.2.1 _).mp h).2 ⟨.inl rfl, ?_⟩
  have hall : ∀ p ∈ t.dirs, .dir p ∈ entries := by decide +kernel
  exact fun p hp _ => ⟨hall p hp, rfl, rfl⟩

/-- After an error nothing is removed; and a directory whose removal fails keeps the one it is in. -/
theorem deleteEmptyDirectories_stays :
    let entries := [Walk.Entry.dir (ascii ['a']), .dir (ascii ['a', '/', 'b'])]
    let t : Tree := ⟨[ascii ['a'], ascii ['a', '/', 'b']], []⟩
    (deleteEmptyDirectories ⟨true, false, fun _ => false, fun _ => false⟩ entries t).2.dirs = t.dirs ∧
      (deleteEmptyDirectories ⟨false, false, fun _ => false, fun d => d = ascii ['a', '/', 'b']⟩ entries t).2.dirs =
        t.dirs := by
  decide +kernel

end Deleting

end ZClone.Sync
