import ZClone.Lib.Path

/-!
# Overlapping roots (`fs/operations/operations.go`)

A sync must not have its destination inside its source, nor the other way round, unless the filter leaves it out.
`overlappingFilterCheck` compares the roots as texts that end in a slash, folded to lower case on case insensitive
remotes, and cuts the inner path off the unfolded text by the length of the other.

- The roots as lists of names (`names`), and that the folded texts begin alike just if the folded names do
  (`dirText_prefix`).
- The cut is right just if the two texts of the outer directory have the same length. `strings.ToLower` changes lengths:
  the Kelvin sign has three bytes and its lower case one. Then another path is filtered, or the check panics
  (`overlappingFilterCheck_iff`).
-/

namespace ZClone.Operations.Overlap

open List
open Paths (Text segments render ascii)

/-- `filepath.ToSlash` and `strings.ToLower`, which goes rune by rune and has no slash where there was none. -/
structure RootEnv where
  toSlash : Text → Text
  toLower : Text → Text
  toLower_nil : toLower [] = []
  toLower_append : ∀ u v, toLower (u ++ Paths.slash :: v) = toLower u ++ Paths.slash :: toLower v
  toLower_no_slash : ∀ u, Paths.slash ∉ u → Paths.slash ∉ toLower u

structure Fs where
  name : Text
  root : Text
  caseInsensitive : Bool

section Code

variable {ε : Type*} (env : RootEnv) (includeDirectory : Fs → Text → Except ε Bool)

/-- `strings.Trim` with a slash -/
def trim (s : Text) : Text := (s.dropWhile (· = Paths.slash)).rdropWhile (· = Paths.slash)

/-- `strings.ToLower` on case insensitive remotes -/
def fold (f : Fs) (s : Text) : Text := if f.caseInsensitive then env.toLower s else s

def fixRoot (f : Fs) : Text × Text :=
  let s := trim (env.toSlash f.root)
  let s := if s = [] then s else s ++ [Paths.slash]
  (s, fold env f s)

def filterCheck (f : Fs) (dir : Text) : Bool :=
  match includeDirectory f dir with
  | .error _ => true
  | .ok ok => ok

/-- The slice `root[len(outer):]` panics if the root is shorter. -/
def checkRelative (f : Fs) (root outer : Text) : Option Bool :=
  if outer.length ≤ root.length then some (filterCheck includeDirectory f (root.drop outer.length)) else none

/-- `none` is a panic. -/
def overlappingFilterCheck (fdst fsrc : Fs) : Option Bool :=
  if fdst.name ≠ fsrc.name then some false
  else
    let (fdstRoot, fdstRootFolded) := fixRoot env fdst
    let (fsrcRoot, fsrcRootFolded) := fixRoot env fsrc
    if fdstRootFolded = fsrcRootFolded then some true
    else if fsrcRootFolded <+: fdstRootFolded then checkRelative includeDirectory fsrc fdstRoot fsrcRoot
    else if fdstRootFolded <+: fsrcRootFolded then checkRelative includeDirectory fdst fsrcRoot fdstRoot
    else some false

end Code

/-! ## Roots as lists of names -/

/-- The text of a directory with these names, with a slash behind each. -/
def dirText (xs : List Text) : Text := xs.flatMap (· ++ [Paths.slash])

/-- The names in the root. -/
def names (env : RootEnv) (f : Fs) : List Text :=
  if trim (env.toSlash f.root) = [] then [] else segments (trim (env.toSlash f.root))

variable {ε : Type*} {env : RootEnv} {f g : Fs} {x : Text} {xs ys : List Text}

theorem dirText_cons (x : Text) (xs : List Text) : dirText (x :: xs) = x ++ Paths.slash :: dirText xs := by
  simp [dirText]

theorem dirText_eq (hne : xs ≠ []) : dirText xs = render xs ++ [Paths.slash] := by
  induction xs with
  | nil => exact absurd rfl hne
  | cons x xs ih =>
    cases xs with
    | nil => simp [dirText, render]
    | cons y xs =>
      rw [dirText_cons, ih (cons_ne_nil _ _), Paths.render_cons_cons, append_assoc, cons_append]

theorem fixRoot_fst : (fixRoot env f).1 = dirText (names env f) := by
  rw [fixRoot, names]
  split_ifs with h
  · exact h
  · have hne : segments (trim (env.toSlash f.root)) ≠ [] := splitOn_ne_nil _ _
    rw [dirText_eq hne, Paths.render_segments]

theorem fold_dirText (xs : List Text) : fold env f (dirText xs) = dirText (xs.map (fold env f)) := by
  induction xs with
  | nil => cases h : f.caseInsensitive <;> simp [fold, h, dirText, env.toLower_nil]
  | cons x xs ih =>
    rw [map_cons, dirText_cons, dirText_cons, ← ih]
    cases h : f.caseInsensitive <;> simp [fold, h, env.toLower_append]

theorem segments_dirText_append (h : ∀ x ∈ xs, Paths.slash ∉ x) (t : Text) :
    segments (dirText xs ++ t) = xs ++ segments t := by
  induction xs with
  | nil => rfl
  | cons x xs ih =>
    obtain ⟨hx, hxs⟩ := forall_mem_cons.mp h
    rw [dirText_cons, append_assoc, cons_append, Paths.segments_append, ih hxs, Paths.segments_of_notMem hx]
    rfl

theorem dirText_prefix (hxs : ∀ x ∈ xs, Paths.slash ∉ x) (hys : ∀ y ∈ ys, Paths.slash ∉ y) :
    dirText xs <+: dirText ys ↔ xs <+: ys := by
  constructor
  · rintro ⟨t, ht⟩
    have hsegments := congrArg segments (ht.trans (append_nil _).symm)
    rw [segments_dirText_append hxs, segments_dirText_append hys] at hsegments
    have hne : segments t ≠ [] := splitOn_ne_nil _ _
    refine ⟨(segments t).dropLast, ?_⟩
    have := congrArg List.dropLast hsegments
    rwa [dropLast_append_of_ne_nil hne, show segments [] = [[]] from splitOn_nil _, dropLast_concat] at this
  · rintro ⟨zs, rfl⟩
    exact ⟨dirText zs, flatMap_append.symm⟩

/-- The names as they are compared. -/
def folded (env : RootEnv) (f : Fs) : List Text := (names env f).map (fold env f)

theorem fixRoot_snd : (fixRoot env f).2 = dirText (folded env f) := by
  rw [folded, ← fold_dirText, ← fixRoot_fst]
  rfl

theorem folded_no_slash : ∀ x ∈ folded env f, Paths.slash ∉ x := by
  refine forall_mem_map.mpr fun x hx => ?_
  have hslash : Paths.slash ∉ x := by
    rw [names] at hx
    split_ifs at hx
    · cases hx
    · exact Paths.slash_notMem_segments _ x hx
  rw [fold]
  split_ifs
  · exact env.toLower_no_slash x hslash
  · exact hslash

theorem fixRoot_snd_prefix : (fixRoot env f).2 <+: (fixRoot env g).2 ↔ folded env f <+: folded env g := by
  rw [fixRoot_snd, fixRoot_snd, dirText_prefix folded_no_slash folded_no_slash]

theorem fixRoot_snd_inj : (fixRoot env f).2 = (fixRoot env g).2 ↔ folded env f = folded env g := by
  refine ⟨fun h => ?_, fun h => by rw [fixRoot_snd, fixRoot_snd, h]⟩
  have hfg : folded env f <+: folded env g := fixRoot_snd_prefix.mp (h ▸ prefix_refl _)
  have hgf : folded env g <+: folded env f := fixRoot_snd_prefix.mp (h ▸ prefix_refl _)
  exact hfg.eq_of_length_le hgf.length_le

/-- If the outer root contains the inner one, the inner path is cut off where it begins. -/
def CutFits (env : RootEnv) (outer inner : Fs) : Prop :=
  folded env outer <+: folded env inner → folded env outer ≠ folded env inner →
    (dirText ((names env inner).take (names env outer).length)).length = (dirText (names env outer)).length

instance (outer inner : Fs) : Decidable (CutFits env outer inner) := inferInstanceAs (Decidable (_ → _ → _))

/-- The check returns, and if it finds no overlap the roots are different and the filter leaves out an inner one by its
path. -/
structure Sound (env : RootEnv) (includeDirectory : Fs → Text → Except ε Bool) (fdst fsrc : Fs) (result : Option Bool) :
    Prop where
  returns : result ≠ none
  apart : result = some false → folded env fdst ≠ folded env fsrc
  dst : result = some false → folded env fsrc <+: folded env fdst →
    includeDirectory fsrc (dirText ((names env fdst).drop (names env fsrc).length)) = .ok false
  src : result = some false → folded env fdst <+: folded env fsrc →
    includeDirectory fdst (dirText ((names env fsrc).drop (names env fdst).length)) = .ok false

theorem checkRelative_iff (f : Fs) (xs ys : List Text) :
    (∀ includeDirectory : Fs → Text → Except ε Bool, checkRelative includeDirectory f (dirText ys) (dirText xs) ≠ none ∧
      (checkRelative includeDirectory f (dirText ys) (dirText xs) = some false →
        includeDirectory f (dirText (ys.drop xs.length)) = .ok false)) ↔
    (dirText (ys.take xs.length)).length = (dirText xs).length := by
  have hsplit : dirText ys = dirText (ys.take xs.length) ++ dirText (ys.drop xs.length) := by
    rw [dirText, dirText, dirText, ← flatMap_append, take_append_drop]
  have hlength := congrArg length hsplit
  rw [length_append] at hlength
  constructor
  · intro h
    obtain ⟨hreturns, hfilter⟩ := h fun _ t => .ok (t ≠ (dirText ys).drop (dirText xs).length)
    unfold checkRelative at hreturns hfilter
    split_ifs at hreturns hfilter with hle
    · have hdrop := hfilter (by simp [filterCheck])
      have := congrArg length (of_decide_eq_false (Except.ok.inj hdrop) |> not_not.mp)
      rw [length_drop] at this
      omega
    · exact absurd rfl hreturns
  · intro h includeDirectory
    have hdrop : (dirText ys).drop (dirText xs).length = dirText (ys.drop xs.length) := by rw [hsplit, ← h, drop_left]
    rw [checkRelative, if_pos (by omega), hdrop, filterCheck]
    refine ⟨Option.some_ne_none _, fun hfalse => ?_⟩
    cases hdir : includeDirectory f (dirText (ys.drop xs.length)) with rw [hdir] at hfalse
    | error e =>
      cases hfalse
    | ok b =>
      cases hfalse
      rfl

/-- On one remote the check returns and is sound, whatever the filter, just if the inner path is cut where it begins. -/
theorem overlappingFilterCheck_iff (env : RootEnv) (fdst fsrc : Fs) (hname : fdst.name = fsrc.name) :
    (∀ includeDirectory : Fs → Text → Except ε Bool,
      Sound env includeDirectory fdst fsrc (overlappingFilterCheck env includeDirectory fdst fsrc)) ↔
    CutFits env fsrc fdst ∧ CutFits env fdst fsrc := by
  simp only [overlappingFilterCheck, hname, ne_eq, not_true_eq_false, if_false, fixRoot_snd_inj, fixRoot_snd_prefix,
    fixRoot_fst]
  by_cases heq : folded env fdst = folded env fsrc
  · simp only [if_pos heq]
    exact ⟨fun _ => ⟨fun _ hne => absurd heq.symm hne, fun _ hne => absurd heq hne⟩,
      fun _ _ => ⟨by simp, by simp, by simp, by simp⟩⟩
  by_cases hdst : folded env fsrc <+: folded env fdst
  · have hsrc : ¬ folded env fdst <+: folded env fsrc := fun h => heq (h.eq_of_length_le hdst.length_le)
    simp only [if_neg heq, if_pos hdst]
    have hcheck := checkRelative_iff (ε := ε) fsrc (names env fsrc) (names env fdst)
    constructor
    · intro h
      exact ⟨fun _ _ => hcheck.mp fun inc => ⟨(h inc).returns, fun hfalse => (h inc).dst hfalse hdst⟩,
        fun h' => absurd h' hsrc⟩
    · intro h inc
      obtain ⟨hreturns, hfalse⟩ := hcheck.mpr (h.1 hdst (Ne.symm heq)) inc
      exact ⟨hreturns, fun _ => heq, fun hr _ => hfalse hr, fun _ h' => absurd h' hsrc⟩
  by_cases hsrc : folded env fdst <+: folded env fsrc
  · simp only [if_neg heq, if_neg hdst, if_pos hsrc]
    have hcheck := checkRelative_iff (ε := ε) fdst (names env fdst) (names env fsrc)
    constructor
    · intro h
      exact ⟨fun h' => absurd h' hdst,
        fun _ _ => hcheck.mp fun inc => ⟨(h inc).returns, fun hfalse => (h inc).src hfalse hsrc⟩⟩
    · intro h inc
      obtain ⟨hreturns, hfalse⟩ := hcheck.mpr (h.2 hsrc heq) inc
      exact ⟨hreturns, fun _ => heq, fun _ h' => absurd h' hdst, fun hr _ => hfalse hr⟩
  · simp only [if_neg heq, if_neg hdst, if_neg hsrc]
    exact ⟨fun _ => ⟨fun h => absurd h hdst, fun h => absurd h hsrc⟩,
      fun _ _ => ⟨Option.some_ne_none _, fun _ => heq, fun _ h => absurd h hdst, fun _ h => absurd h hsrc⟩⟩

/-- The Kelvin sign. -/
def kelvin : Text := [0xE2, 0x84, 0xAA]

/-- Lower case of the names, of which only the Kelvin sign changes. -/
def lowerKelvin (x : Text) : Text := if x = kelvin then ascii ['k'] else x

def kelvinEnv : RootEnv where
  toSlash := id
  toLower s := render ((segments s).map lowerKelvin)
  toLower_nil := rfl
  toLower_append u v := by
    rw [Paths.segments_append, List.map_append, Paths.render_append] <;> simp [segments, List.splitOn_ne_nil]
  toLower_no_slash u hu := by
    rw [Paths.segments_of_notMem hu, List.map_singleton, Paths.render_singleton, lowerKelvin]
    split_ifs
    · decide
    · exact hu

/-- The directory of a root on the one remote, which ignores case. -/
def kelvinFs (root : Text) : Fs := ⟨[], root, true⟩

/-- A filter that leaves out the one directory. -/
def excludeA (_ : Fs) (dir : Text) : Except Unit Bool := .ok (dir != ascii ['a', '/'])

theorem overlappingFilterCheck_inside :
    let inner := kelvinFs (kelvin ++ [Paths.slash, 0x61])
    overlappingFilterCheck kelvinEnv excludeA (kelvinFs kelvin) inner = some false ∧
      Sound kelvinEnv excludeA (kelvinFs kelvin) inner
        (overlappingFilterCheck kelvinEnv excludeA (kelvinFs kelvin) inner) := by
  intro inner
  exact ⟨rfl, (overlappingFilterCheck_iff kelvinEnv (kelvinFs kelvin) inner rfl).mpr (by decide) excludeA⟩

/-- With two Kelvin signs in the outer root and two letters in the inner one the cut is behind the end. -/
theorem overlappingFilterCheck_panics :
    overlappingFilterCheck (ε := Unit) kelvinEnv (fun _ _ => .ok true) (kelvinFs (kelvin ++ Paths.slash :: kelvin))
      (kelvinFs (ascii ['k', '/', 'k', '/', 'a'])) = none := rfl

end ZClone.Operations.Overlap
