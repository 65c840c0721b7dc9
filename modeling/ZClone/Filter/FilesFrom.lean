import ZClone.Lib.Path
import Mathlib.Data.Finset.Insert

/-!
# The files-from list (`fs/filter/filter.go`)

- `addFile` is `AddFile`: a file is added to the list and, by `climb`, the directories above it, up to one that is there
  already.
- `mem_climb`: to stop there is right, because above a directory that is there all others are.
- `addFile_sets`: what the two sets are after any calls, and which directories `includeDirectory` includes.
-/

namespace ZClone.FilesFrom

open Paths List

/-- `f.files` and `f.dirs`. -/
structure Lists where
  files : Finset Text
  dirs : Finset Text

/-- The loop of `AddFile`. -/
def climb : Nat → Text → Finset Text → Finset Text
  | 0, _, dirs => dirs
  | fuel + 1, file, dirs =>
    if dir file = here then dirs
    else if dir file ∈ dirs then dirs
    else climb fuel (dir file) (insert (dir file) dirs)

/-- `AddFile`. The lists are made by the first call. -/
def addFile (f : Option Lists) (file : Text) : Option Lists :=
  let f := f.getD ⟨∅, ∅⟩
  let file := trimSlashes file
  some ⟨insert file f.files, climb (file.length + 1) file f.dirs⟩

/-- `IncludeRemote`; without a list the rules decide. -/
def includeRemote (rules : Text → Bool) (f : Option Lists) (remote : Text) : Bool :=
  match f with
  | some f => remote ∈ f.files
  | none => rules remote

/-- `IncludeDirectory`. The answer of `DirContainsExcludeFile` comes first. -/
def includeDirectory {ε : Type} (rules : Text → Bool) (containsExcludeFile : Text → Except ε Bool) (f : Option Lists)
    (remote : Text) : Except ε Bool := do
  let remote := trimSlashes remote
  if ← containsExcludeFile remote then return false
  match f with
  | some f => return remote ∈ f.dirs
  | none => return rules (remote ++ [slash])

/-! ## The directory of a file -/

/-- The segments of the directory of a file, when it is cleaned. -/
def folders (file : Text) : List Text := reduce false (segments file).dropLast

theorem isSegment_folders (file : Text) : ∀ x ∈ (segments file).dropLast.filter (· ≠ []), IsSegment x :=
  isSegment_filter fun x hx => slash_notMem_segments file x (mem_of_mem_dropLast hx)

theorem tidy_folders (file : Text) : Tidy (folders file) := by
  rw [folders, reduce, foldl_push_filter]
  exact tidy_reduce (isSegment_folders file)

theorem head_trimSlashes (p : Text) : (trimSlashes p).head? ≠ some slash := by
  intro h
  obtain ⟨xs, hxs⟩ := head?_eq_some_iff.mp h
  obtain ⟨rest, hrest⟩ : trimSlashes p <+: p.dropWhile (· = slash) := rdropWhile_prefix _ _
  have hhead := head?_dropWhile_not (· = slash) p
  rw [← hrest, hxs] at hhead
  simp at hhead

theorem length_folders_le (file : Text) : (folders file).length ≤ file.length := by
  have hreduce : (folders file).length ≤ ((segments file).dropLast.filter (· ≠ [])).length := by
    rw [folders, reduce, foldl_push_filter]
    exact (reduce_eq_or_lt (isSegment_folders file)).elim (fun h => (congrArg length h).le) Nat.le_of_lt
  have hcount := count_render (slash_notMem_segments file)
  rw [render_segments] at hcount
  calc (folders file).length ≤ (segments file).dropLast.length := hreduce.trans (length_filter_le _ _)
    _ = file.count slash := by rw [length_dropLast, hcount]
    _ ≤ file.length := count_le_length

theorem dir_eq {file : Text} (h : file.head? ≠ some slash) : dir file = toPath (folders file) := by
  obtain ⟨init, x, hx⟩ := (segments file).eq_nil_or_concat'.resolve_left (splitOn_ne_nil _ _)
  have hslash := slash_notMem_segments file
  have hfile := render_segments file
  rw [hx] at hslash hfile
  have hnone : slash ∉ x := hslash x (by simp)
  rw [folders, hx, dropLast_concat, dir, ← hfile]
  by_cases hnil : init = []
  · subst hnil
    rw [nil_append, render_singleton, (rdropWhile_of_all (all_ne_slash hnone)).1]
    rfl
  · have hhead : (render init ++ [slash]).head? ≠ some slash := by
      rw [← hfile, render_concat hnil] at h
      rwa [head?_append] at h ⊢
    have hsegments : segments (render init ++ [slash]) = init ++ [[]] := by
      rw [segments_append, segments_render hnil fun y hy => hslash y (mem_append_left _ hy)]
      rfl
    have htidy := tidy_folders file
    rw [folders, hx, dropLast_concat] at htidy
    have hreduce : reduce false (init ++ [[]]) = reduce false init := by
      rw [reduce, foldl_append]
      rfl
    rw [render_concat hnil, (rdropWhile_append (all_ne_slash hnone) (by simp)).1, clean, hsegments,
      decide_eq_false hhead, if_neg hhead, nil_append, hreduce, toPath]
    by_cases hempty : reduce false init = []
    · rw [if_pos hempty, if_pos (by rw [hempty]; rfl)]
    · rw [if_neg hempty, if_neg (render_ne_nil hempty htidy.isSegment)]

/-! ## Directories above -/

/-- A path of one or more of the first segments. -/
def Above (xs : List Text) (d : Text) : Prop := ∃ ys, ys ≠ [] ∧ ys <+: xs ∧ d = render ys

variable {xs : List Text}

theorem above_concat {x d : Text} : Above (xs ++ [x]) d ↔ d = render (xs ++ [x]) ∨ Above xs d := by
  constructor
  · rintro ⟨ys, hne, hpre, rfl⟩
    rcases prefix_concat_iff.mp hpre with rfl | hpre
    · exact .inl rfl
    · exact .inr ⟨ys, hne, hpre, rfl⟩
  · rintro (rfl | ⟨ys, hne, hpre, rfl⟩)
    · exact ⟨_, by simp, prefix_rfl, rfl⟩
    · exact ⟨ys, hne, hpre.trans (prefix_append _ _), rfl⟩

theorem Tidy.of_prefix {ys : List Text} (h : Tidy xs) (hpre : ys <+: xs) : ∀ y ∈ ys, IsSegment y :=
  fun y hy => h.isSegment y (hpre.subset hy)

theorem render_ne_here (hne : xs ≠ []) (h : Tidy xs) : render xs ≠ here := by
  intro heq
  obtain rfl : xs = [here] :=
    render_injective h.isSegment (by simpa using isSegment_here) (by rw [heq, render_singleton])
  have hreduce := reduce_of_tidy h
  exact absurd hreduce (by decide)

/-- What the loop adds, if above every directory on the way that is there all others are there too. By induction on the
segments, from the last one on. -/
theorem mem_climb (htidy : Tidy xs) : ∀ {fuel : Nat} {file : Text} {dirs : Finset Text}, xs.length < fuel →
    dir file = toPath xs → (∀ ys, ys ≠ [] → ys <+: xs → render ys ∈ dirs → ∀ d, Above ys d → d ∈ dirs) →
    ∀ d, d ∈ climb fuel file dirs ↔ d ∈ dirs ∨ Above xs d := by
  induction xs using reverseRecOn with
  | nil =>
    intro fuel file dirs hfuel hdir _ d
    obtain ⟨fuel, rfl⟩ := Nat.exists_eq_succ_of_ne_zero (Nat.ne_of_gt hfuel)
    rw [climb, if_pos (show dir file = here from hdir)]
    refine (or_iff_left ?_).symm
    rintro ⟨ys, hne, hpre, -⟩
    exact hne (prefix_nil.mp hpre)
  | append_singleton xs x ih =>
    intro fuel file dirs hfuel hdir hclosed d
    obtain ⟨fuel, rfl⟩ := Nat.exists_eq_succ_of_ne_zero (Nat.ne_of_gt (Nat.zero_lt_of_lt hfuel))
    have hne : xs ++ [x] ≠ [] := by simp
    have hdir' := hdir
    rw [toPath_of_ne_nil hne] at hdir
    rw [climb, hdir, if_neg (render_ne_here hne htidy)]
    by_cases hfound : render (xs ++ [x]) ∈ dirs
    · rw [if_pos hfound]
      exact (or_iff_left_of_imp (hclosed _ hne prefix_rfl hfound d)).symm
    · have hinit : Tidy xs := by simpa using htidy.dropLast
      rw [length_append, length_singleton] at hfuel
      rw [if_neg hfound, ih hinit (by omega), Finset.mem_insert, above_concat, or_assoc, or_left_comm]
      · rw [← hdir, hdir', dir_toPath htidy, dropLast_concat]
      · -- what was added is longer than what is still to come
        intro ys hys hpre hmem d' hd'
        have hpre' : ys <+: xs ++ [x] := hpre.trans (prefix_append _ _)
        rcases Finset.mem_insert.mp hmem with heq | hmem
        · have heq' := render_injective (Tidy.of_prefix htidy hpre') htidy.isSegment heq
          have hlen := hpre.length_le
          rw [heq', length_append, length_singleton] at hlen
          omega
        · exact Finset.mem_insert_of_mem (hclosed ys hys hpre' hmem d' hd')

/-! ## The sets -/

/-- The lists after some calls. -/
def addFiles (calls : List Text) : Option Lists := calls.foldl addFile none

/-- The lists are those of the files, and nothing else. -/
structure ListsOf (calls : List Text) (f : Lists) : Prop where
  files : ∀ x, x ∈ f.files ↔ ∃ file ∈ calls, x = trimSlashes file
  dirs : ∀ d, d ∈ f.dirs ↔ ∃ file ∈ calls, Above (folders (trimSlashes file)) d

theorem ListsOf.addFile {calls : List Text} {f : Lists} (h : ListsOf calls f) (file : Text) :
    ∃ f', addFile (some f) file = some f' ∧ ListsOf (calls ++ [file]) f' := by
  refine ⟨_, rfl, fun x => ?_, fun d => ?_⟩
  · simp only [Option.getD_some, Finset.mem_insert, h.files]
    simp [or_comm]
  · simp only [Option.getD_some]
    rw [mem_climb (tidy_folders (trimSlashes file)) (Nat.lt_succ_of_le (length_folders_le _))
      (dir_eq (head_trimSlashes file)), h.dirs]
    · simp [or_and_right, exists_or]
    · intro ys hne hpre hmem d' hd'
      obtain ⟨file', hfile', zs, hzs, hpre', heq⟩ := (h.dirs _).mp hmem
      obtain rfl := render_injective (Tidy.of_prefix (tidy_folders _) hpre) (Tidy.of_prefix (tidy_folders _) hpre') heq
      obtain ⟨ys', hys', hpre'', rfl⟩ := hd'
      exact (h.dirs _).mpr ⟨file', hfile', ys', hys', hpre''.trans hpre', rfl⟩

theorem listsOf_addFiles (calls : List Text) : ListsOf calls ((addFiles calls).getD ⟨∅, ∅⟩) := by
  induction calls using reverseRecOn with
  | nil => exact ⟨by simp [addFiles], by simp [addFiles]⟩
  | append_singleton calls file ih =>
    obtain ⟨f', hf', hlists⟩ := ih.addFile file
    have hsame : addFile (addFiles calls) file = addFile (some ((addFiles calls).getD ⟨∅, ∅⟩)) file := by
      simp [FilesFrom.addFile]
    rw [addFiles, foldl_concat]
    change ListsOf _ ((addFile (addFiles calls) file).getD _)
    rwa [hsame, hf']

/-- After any calls of `AddFile`, at least one, the files are those added, without the slashes around them, and the
directories are those above them, without the root; so the directories included are these, if no exclude file is in
them. -/
theorem addFile_sets {ε : Type} (rules : Text → Bool) (containsExcludeFile : Text → Except ε Bool) {calls : List Text}
    (hne : calls ≠ []) :
    ∃ f, addFiles calls = some f ∧ (∀ x, x ∈ f.files ↔ ∃ file ∈ calls, x = trimSlashes file) ∧
      (∀ d, d ∈ f.dirs ↔ ∃ file ∈ calls, Above (folders (trimSlashes file)) d) ∧
      (∀ remote, includeRemote rules (some f) remote = true ↔ ∃ file ∈ calls, remote = trimSlashes file) ∧
      ∀ remote, containsExcludeFile (trimSlashes remote) = .ok false →
        (includeDirectory rules containsExcludeFile (some f) remote = .ok true ↔
          ∃ file ∈ calls, Above (folders (trimSlashes file)) (trimSlashes remote)) := by
  have hlists := listsOf_addFiles calls
  obtain ⟨f, hf⟩ : ∃ f, addFiles calls = some f := by
    obtain ⟨calls, file, rfl⟩ := calls.eq_nil_or_concat'.resolve_left hne
    exact ⟨_, by rw [addFiles, foldl_concat, addFile]⟩
  rw [hf, Option.getD_some] at hlists
  refine ⟨f, hf, hlists.files, hlists.dirs, ?_, ?_⟩
  · intro remote
    rw [includeRemote, decide_eq_true_eq, hlists.files]
  · intro remote hnone
    rw [← hlists.dirs]
    simp [includeDirectory, hnone, pure, Except.pure, bind, Except.bind]

/-- The files `a/b` and `/a/c/d`: the climb from the second one stops at `a`, which is there, and both directories are
included. -/
theorem addFile_sets_nested :
    let calls := [ascii ['a', '/', 'b'], ascii "/a/c/d".toList]
    ∃ f, addFiles calls = some f ∧ includeRemote (fun _ => false) (some f) (ascii "a/c/d".toList) = true ∧
      ∀ d ∈ [ascii ['a'], ascii ['a', '/', 'c']],
        includeDirectory (ε := Unit) (fun _ => false) (fun _ => .ok false) (some f) d = .ok true := by
  obtain ⟨f, hf, -, -, hfiles, hdirs⟩ := addFile_sets (ε := Unit) (fun _ => false) (fun _ => .ok false)
    (cons_ne_nil (ascii ['a', '/', 'b']) [ascii "/a/c/d".toList])
  have hfolders : folders (trimSlashes (ascii "/a/c/d".toList)) = [ascii ['a'], ascii ['c']] := by decide
  refine ⟨f, hf, (hfiles _).mpr ⟨_, mem_cons_of_mem _ mem_cons_self, by decide⟩, fun d hd => (hdirs _ rfl).mpr ?_⟩
  refine ⟨_, mem_cons_of_mem _ mem_cons_self, ?_⟩
  rw [hfolders]
  rcases mem_cons.mp hd with rfl | hd
  · exact ⟨[ascii ['a']], by decide, by decide, by decide⟩
  · exact ⟨[ascii ['a'], ascii ['c']], by decide, prefix_rfl, by rw [mem_singleton.mp hd]; decide⟩

/-- The root is not among the directories of the file `a`, and a file keeps the slashes within it. -/
theorem root_not_included :
    (∃ f, addFiles [ascii ['a']] = some f ∧
      includeDirectory (ε := Unit) (fun _ => false) (fun _ => .ok false) (some f) [] = .ok false) ∧
    ∃ f, addFiles [ascii ['a', '/', '/', 'b']] = some f ∧ f.files = {ascii ['a', '/', '/', 'b']} :=
  ⟨⟨_, rfl, by decide⟩, ⟨_, rfl, by decide⟩⟩

end ZClone.FilesFrom
