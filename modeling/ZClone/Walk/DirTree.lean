import Mathlib.Data.List.AList
import ZClone.Lib.Path

/-!
# Directory trees

`dirtree.DirTree` maps directories to their entries.

- `add`, `addDir`, `find`, `checkParent` and `checkParents` are its methods. The order in which `checkParents` goes
  through the map is a parameter.
- `Below` and `level` say where a path is; `parentDir_render` says what `parentDir` does to a path of names.
- `Repaired` is what `checkParents` leads to (`repaired_checkParents`): every directory is an entry of its parent up to
  the root, and nothing else is new.
-/

namespace ZClone.Walk

open List
open Paths (Text IsName render dir here)

inductive Entry where
  | object (remote : Text)
  | dir (remote : Text)
  deriving DecidableEq

def Entry.remote : Entry → Text
  | .object remote | .dir remote => remote

def Entry.isDir? : Entry → Option Text
  | .object _ => none
  | .dir remote => some remote

abbrev DirTree := AList fun _ : Text => List Entry

section Code

def parentDir (entryPath : Text) : Text :=
  let dirPath := dir entryPath
  if dirPath = here then [] else dirPath

/-- The entries of a directory; none if it is not in the map. -/
def get (dt : DirTree) (dirPath : Text) : List Entry := (dt.lookup dirPath).getD []

def add (dt : DirTree) (entry : Entry) : DirTree :=
  dt.insert (parentDir entry.remote) (get dt (parentDir entry.remote) ++ [entry])

def addDir (dt : DirTree) (entry : Entry) : DirTree :=
  if entry.remote = [] then dt
  else
    let dt := add dt entry
    if (dt.lookup entry.remote).isSome then dt else dt.insert entry.remote []

def find (dt : DirTree) (filePath : Text) : Option Entry :=
  (get dt (parentDir filePath)).find? (·.remote = filePath)

/-- The loop of `checkParent`, with the directories known to be entries. -/
def checkParent (root : Text) : Nat → Text → DirTree × List Text → DirTree × List Text
  | 0, _, st => st
  | fuel + 1, dirPath, (dt, dirs) =>
    if dirPath = root ∨ dirPath ∈ dirs then (dt, dirs)
    else
      checkParent root fuel (parentDir dirPath)
        (dt.insert (parentDir dirPath) (get dt (parentDir dirPath) ++ [.dir dirPath]), dirPath :: dirs)

/-- The directories among the entries. -/
def entryDirs (dt : DirTree) : List Text := dt.keys.flatMap fun dirPath => (get dt dirPath).filterMap Entry.isDir?

/-- A path has fewer directories above it than bytes and one more. -/
def checkParents (root : Text) (order : List Text) (dt : DirTree) : DirTree :=
  (order.foldl (fun st dirPath => checkParent root (dirPath.length + 2) dirPath st) (dt, entryDirs dt)).1

end Code

/-! ## Paths -/

section Paths

variable {d p q : Text} {xs ys : List Text}

/-- The path `p` is in the directory `d` or further down. -/
def Below (d p : Text) : Prop :=
  ∃ xs ys, (∀ x ∈ xs ++ ys, IsName x) ∧ ys ≠ [] ∧ d = render xs ∧ p = render (xs ++ ys)

/-- The number of names in a path. -/
def level (p : Text) : Nat := if p = [] then 0 else p.count Paths.slash + 1

section

variable (hxs : ∀ x ∈ xs, IsName x)

include hxs

theorem render_names_ne_nil (hne : xs ≠ []) : render xs ≠ [] :=
  Paths.render_ne_nil hne fun x hx => (hxs x hx).toIsSegment

theorem parentDir_render : parentDir (render xs) = render xs.dropLast := by
  by_cases hne : xs = []
  · subst hne
    decide
  · have hdir : dir (render xs) = Paths.toPath xs.dropLast := by
      rw [← Paths.toPath_of_ne_nil hne, Paths.dir_toPath (Paths.tidy_names hxs)]
    have hnames : ∀ x ∈ xs.dropLast, IsName x := fun x hx => hxs x (dropLast_subset xs hx)
    rw [parentDir, hdir]
    by_cases hone : xs.dropLast = []
    · rw [hone]
      rfl
    · rw [Paths.toPath_of_ne_nil hone]
      refine if_neg fun hhere => ?_
      rw [← Paths.render_singleton here] at hhere
      have heq := Paths.render_injective (fun x hx => (hnames x hx).toIsSegment)
        (by simpa using Paths.isSegment_here) hhere
      exact (hnames here (by rw [heq]; simp)).ne_here rfl

theorem level_render : level (render xs) = xs.length := by
  rcases eq_nil_or_concat' xs with rfl | ⟨init, x, rfl⟩
  · rfl
  · rw [level, if_neg (render_names_ne_nil hxs (by simp)), Paths.count_render fun x hx => (hxs x hx).no_slash]
    simp

end

/-- The directory `j` steps up. -/
theorem repeat_parentDir (hxs : ∀ x ∈ xs, IsName x) :
    ∀ j, Nat.repeat parentDir j (render xs) = render (xs.take (xs.length - j))
  | 0 => by rw [Nat.sub_zero, take_length]; rfl
  | j + 1 => by
    have hnames : ∀ x ∈ xs.take (xs.length - j), IsName x := fun x hx => hxs x (mem_of_mem_take hx)
    change parentDir (Nat.repeat parentDir j (render xs)) = _
    rw [repeat_parentDir hxs j, parentDir_render hnames, dropLast_eq_take, take_take, length_take]
    congr 2
    omega

theorem Below.parentDir (h : Below d p) : parentDir p = d ∨ Below d (parentDir p) := by
  obtain ⟨xs, ys, hnames, hne, rfl, rfl⟩ := h
  rw [parentDir_render hnames, dropLast_append_of_ne_nil hne]
  by_cases hone : ys.dropLast = []
  · left
    rw [hone, append_nil]
  · right
    refine ⟨xs, ys.dropLast, fun x hx => hnames x ?_, hone, rfl, rfl⟩
    rw [mem_append] at hx ⊢
    exact hx.imp_right fun hx => dropLast_subset ys hx

theorem Below.trans {a b e : Text} (h : Below a b) (h' : Below b e) : Below a e := by
  obtain ⟨xs, ys, hnames, hne, rfl, rfl⟩ := h
  obtain ⟨xs', ys', hnames', -, heq, rfl⟩ := h'
  have hxs' : ∀ x ∈ xs', IsName x := fun x hx => hnames' x (mem_append_left _ hx)
  cases Paths.render_injective (fun x hx => (hnames x hx).toIsSegment) (fun x hx => (hxs' x hx).toIsSegment) heq
  exact ⟨xs, ys ++ ys', by rwa [← append_assoc], by simp [hne], rfl, by rw [append_assoc]⟩

theorem Below.level_lt (h : Below d p) : level d < level p := by
  obtain ⟨xs, ys, hnames, hne, rfl, rfl⟩ := h
  rw [level_render hnames, level_render fun x hx => hnames x (mem_append_left _ hx), length_append]
  have hpos := length_pos_of_ne_nil hne
  omega

theorem level_le_of_below {c d : Text} (h : c = d ∨ Below c d) : level c ≤ level d := by
  rcases h with rfl | h
  · exact Nat.le_refl _
  · exact Nat.le_of_lt h.level_lt

theorem Below.ne (h : Below d p) : p ≠ d := by
  rintro rfl
  exact Nat.lt_irrefl _ h.level_lt

theorem Below.ne_nil (h : Below d p) : p ≠ [] := by
  obtain ⟨xs, ys, hnames, hne, -, rfl⟩ := h
  exact render_names_ne_nil hnames (by simp [hne])

/-- Paths made of names. -/
def IsPath (p : Text) : Prop := ∃ xs, (∀ x ∈ xs, IsName x) ∧ p = render xs

theorem Below.isPath (h : Below d p) : IsPath d ∧ IsPath p := by
  obtain ⟨xs, ys, hnames, -, rfl, rfl⟩ := h
  exact ⟨⟨xs, fun x hx => hnames x (mem_append_left _ hx), rfl⟩, ⟨xs ++ ys, hnames, rfl⟩⟩

theorem IsPath.below_parentDir (h : IsPath p) (hne : p ≠ []) : Below (Walk.parentDir p) p := by
  obtain ⟨xs, hnames, rfl⟩ := h
  have hxs : xs ≠ [] := by
    rintro rfl
    exact hne rfl
  have hsplit := dropLast_append_getLast hxs
  rw [parentDir_render hnames]
  exact ⟨xs.dropLast, [xs.getLast hxs], by rwa [hsplit], by simp, rfl, by rw [hsplit]⟩

theorem IsPath.below_nil (h : IsPath p) (hne : p ≠ []) : Below [] p := by
  obtain ⟨xs, hnames, rfl⟩ := h
  refine ⟨[], xs, hnames, ?_, rfl, rfl⟩
  rintro rfl
  exact hne rfl

theorem IsPath.parentDir (h : IsPath p) : IsPath (Walk.parentDir p) ∧ level (Walk.parentDir p) = level p - 1 := by
  obtain ⟨xs, hnames, rfl⟩ := h
  have hinit : ∀ x ∈ xs.dropLast, IsName x := fun x hx => hnames x (dropLast_subset xs hx)
  rw [parentDir_render hnames, level_render hnames, level_render hinit, length_dropLast]
  exact ⟨⟨_, hinit, rfl⟩, rfl⟩

theorem level_pos (hne : p ≠ []) : 0 < level p := by
  rw [level, if_neg hne]
  exact Nat.succ_pos _

theorem IsPath.level_parentDir (h : IsPath p) (hne : p ≠ []) : level (Walk.parentDir p) + 1 = level p := by
  rw [h.parentDir.2]
  exact Nat.sub_add_cancel (level_pos hne)

theorem Below.level_parentDir (h : Below d p) : level (Walk.parentDir p) + 1 = level p :=
  h.isPath.2.level_parentDir h.ne_nil

/-- What goes over from a path below `d` to its parent comes up to `d`. -/
theorem Below.climb {P : Text → Prop} (hparent : ∀ p, P p → Below d p → P (Walk.parentDir p)) (h : Below d p)
    (hp : P p) : P d := by
  induction hn : level p generalizing p with
  | zero => exact absurd h.level_lt (by omega)
  | succ n ih =>
    have hup := hparent p hp h
    rcases h.parentDir with heq | hbelow
    · rwa [heq] at hup
    · exact ih hbelow hup (by have := h.level_parentDir; omega)

/-- On the way down to `p` there is a directory on each level. -/
theorem Below.exists_between (h : Below d p) {m : Nat} (hm : level d < m) (hm' : m < level p) :
    ∃ a, Below d a ∧ Below a p ∧ level a = m := by
  obtain ⟨xs, ys, hnames, hne, rfl, rfl⟩ := h
  have hxs : ∀ x ∈ xs, IsName x := fun x hx => hnames x (mem_append_left _ hx)
  rw [level_render hxs] at hm
  rw [level_render hnames, length_append] at hm'
  have hsplit : xs ++ ys = (xs ++ ys.take (m - xs.length)) ++ ys.drop (m - xs.length) := by
    rw [append_assoc, take_append_drop]
  have hnames' : ∀ x ∈ xs ++ ys.take (m - xs.length), IsName x := fun x hx => hnames x (hsplit ▸ mem_append_left _ hx)
  refine ⟨render (xs ++ ys.take (m - xs.length)), ⟨xs, _, hnames', ?_, rfl, rfl⟩,
    ⟨_, _, hsplit ▸ hnames, ?_, rfl, ?_⟩, ?_⟩
  · intro hnil
    have hlength := congrArg length hnil
    rw [length_take, length_nil] at hlength
    omega
  · intro hnil
    have hlength := congrArg length hnil
    rw [length_drop, length_nil] at hlength
    omega
  · rw [← hsplit]
  · rw [level_render hnames', length_append, length_take]
    omega

/-- There is one directory on each level. -/
theorem Below.unique {d' : Text} (h : Below d p) (h' : Below d' p) (hlevel : level d = level d') : d = d' := by
  obtain ⟨xs, ys, hnames, -, rfl, rfl⟩ := h
  obtain ⟨xs', ys', hnames', -, rfl, heq⟩ := h'
  rw [level_render fun x hx => hnames x (mem_append_left _ hx),
    level_render fun x hx => hnames' x (mem_append_left _ hx)] at hlevel
  have happend :=
    Paths.render_injective (fun x hx => (hnames x hx).toIsSegment) (fun x hx => (hnames' x hx).toIsSegment) heq
  rw [(append_inj happend hlevel).1]

theorem level_le_length (p : Text) : level p ≤ p.length + 1 := by
  rw [level]
  split_ifs
  · exact Nat.zero_le _
  · exact Nat.succ_le_succ count_le_length

end Paths

/-! ## The methods -/

section Methods

variable {dt : DirTree} {d d' : Text} {e e' : Entry}

theorem mem_of_mem_get (h : e ∈ get dt d) : d ∈ dt := by
  rw [← AList.lookup_isSome]
  cases hlookup : dt.lookup d with
  | none =>
    rw [get, hlookup] at h
    cases h
  | some _ => rfl

theorem get_insert_self (entries : List Entry) : get (dt.insert d entries) d = entries := by
  rw [get, AList.lookup_insert, Option.getD_some]

theorem get_insert_ne (h : d' ≠ d) (entries : List Entry) : get (dt.insert d entries) d' = get dt d' := by
  rw [get, AList.lookup_insert_ne h, get]

theorem mem_get_append (new : Entry) :
    e ∈ get (dt.insert d (get dt d ++ [new])) d' ↔ e ∈ get dt d' ∨ d' = d ∧ e = new := by
  by_cases h : d' = d
  · subst h
    simp [get_insert_self]
  · simp [get_insert_ne h, h]

theorem mem_add : d ∈ add dt e ↔ d ∈ dt ∨ parentDir e.remote = d := by
  rw [add, AList.mem_insert, or_comm, eq_comm]

theorem mem_get_add : e' ∈ get (add dt e) d ↔ e' ∈ get dt d ∨ d = parentDir e.remote ∧ e' = e := mem_get_append e

theorem addDir_spec (hne : e.remote ≠ []) : (∀ d, d ∈ addDir dt e ↔ d ∈ dt ∨ parentDir e.remote = d ∨ e.remote = d) ∧
    ∀ d e', e' ∈ get (addDir dt e) d ↔ e' ∈ get dt d ∨ d = parentDir e.remote ∧ e' = e := by
  rw [addDir, if_neg hne]
  dsimp only
  split_ifs with hmem
  · refine ⟨fun d => ?_, fun _ _ => mem_get_add⟩
    rw [AList.lookup_isSome, mem_add] at hmem
    rw [mem_add, ← or_assoc]
    refine ⟨.inl, fun h => h.elim id ?_⟩
    rintro rfl
    exact hmem
  · have hnew : ∀ d, get ((add dt e).insert e.remote []) d = get (add dt e) d := by
      intro d
      by_cases hd : d = e.remote
      · subst hd
        rw [get_insert_self, get, Option.not_isSome_iff_eq_none.mp hmem, Option.getD_none]
      · exact get_insert_ne hd _
    refine ⟨fun d => ?_, fun d _ => ?_⟩
    · rw [AList.mem_insert, mem_add, or_comm, or_assoc, eq_comm (a := d)]
    · rw [hnew]
      exact mem_get_add

theorem mem_addDir (hd : d ∈ dt) : d ∈ addDir dt e := by
  by_cases hne : e.remote = []
  · rwa [addDir, if_pos hne]
  · exact ((addDir_spec hne).1 d).mpr (.inl hd)

theorem find_isSome (h : e ∈ get dt (parentDir e.remote)) : (find dt e.remote).isSome = true := by
  rw [find, find?_isSome]
  exact ⟨e, h, by simp⟩

theorem mem_entryDirs {c : Text} : c ∈ entryDirs dt ↔ ∃ d, .dir c ∈ get dt d := by
  rw [entryDirs, mem_flatMap]
  constructor
  · rintro ⟨d, -, hc⟩
    obtain ⟨e, he, hdir⟩ := mem_filterMap.mp hc
    cases e with
    | object _ => cases hdir
    | dir remote =>
      cases hdir
      exact ⟨d, he⟩
  · rintro ⟨d, hd⟩
    exact ⟨d, AList.mem_keys.mp (mem_of_mem_get hd), mem_filterMap.mpr ⟨_, hd, rfl⟩⟩

end Methods

/-! ## Checking parents -/

section Checking

variable {root d : Text} {dt₀ dt : DirTree} {rest : List Text} {st : DirTree × List Text}

/-- The directories in `dirs` are listed, and all others that are not pending are the root. -/
structure Settling (root : Text) (pending : List Text) (st : DirTree × List Text) : Prop where
  listed : ∀ c ∈ st.2, .dir c ∈ get st.1 (parentDir c)
  settled : ∀ k ∈ st.1, k = root ∨ k ∈ st.2 ∨ k ∈ pending

theorem Settling.done (h : Settling root (d :: rest) st) (hd : d = root ∨ d ∈ st.2) : Settling root rest st where
  listed := h.listed
  settled k hk := by
    rcases h.settled k hk with hroot | hlisted | hpending
    · exact .inl hroot
    · exact .inr (.inl hlisted)
    · rcases mem_cons.mp hpending with rfl | hrest
      · exact hd.imp_right .inl
      · exact .inr (.inr hrest)

theorem Settling.climb (h : Settling root (d :: rest) st) : Settling root (parentDir d :: rest)
      (st.1.insert (parentDir d) (get st.1 (parentDir d) ++ [.dir d]), d :: st.2) where
  listed c hc := by
    refine (mem_get_append _).mpr ?_
    rcases mem_cons.mp hc with rfl | hc
    · exact .inr ⟨rfl, rfl⟩
    · exact .inl (h.listed c hc)
  settled k hk := by
    rcases (AList.mem_insert _).mp hk with rfl | hk
    · exact .inr (.inr mem_cons_self)
    · rcases h.settled k hk with hroot | hlisted | hpending
      · exact .inl hroot
      · exact .inr (.inl (mem_cons_of_mem _ hlisted))
      · rcases mem_cons.mp hpending with rfl | hrest
        · exact .inr (.inl mem_cons_self)
        · exact .inr (.inr (mem_cons_of_mem _ hrest))

/-- What may have been added: a directory below the root, on the way down to some directory of the tree. -/
structure Extends (root : Text) (dt₀ dt : DirTree) : Prop where
  keys : ∀ d ∈ dt₀, d ∈ dt
  entries : ∀ d e, e ∈ get dt₀ d → e ∈ get dt d
  newKeys : ∀ d ∈ dt, d ∈ dt₀ ∨ ∃ c, .dir c ∈ get dt d
  newEntries : ∀ d e, e ∈ get dt d → e ∈ get dt₀ d ∨
    ∃ c k, e = .dir c ∧ d = parentDir c ∧ Below root c ∧ k ∈ dt₀ ∧ (c = k ∨ Below c k)

/-- Every directory is an entry of its parent. -/
structure Repaired (root : Text) (dt₀ dt : DirTree) : Prop extends Extends root dt₀ dt where
  closed : ∀ d ∈ dt, d = root ∨ .dir d ∈ get dt (parentDir d)

/-- Every directory that is not pending is an entry of its parent, as far as `dirs` says. -/
structure Repairing (root : Text) (dt₀ : DirTree) (pending : List Text) (st : DirTree × List Text) : Prop
    extends Extends root dt₀ st.1 where
  dirs : ∀ c, c ∈ st.2 ↔ .dir c ∈ get st.1 (parentDir c)
  closed : ∀ d ∈ st.1, d = root ∨ d ∈ st.2 ∨ d ∈ pending

theorem Repairing.settling {pending : List Text} (h : Repairing root dt₀ pending st) : Settling root pending st :=
  ⟨fun c hc => (h.dirs c).mp hc, h.closed⟩

theorem Repairing.insert {dirPath k : Text}
    (h : Repairing root dt₀ (dirPath :: rest) st) (hbelow : Below root dirPath) (hk : k ∈ dt₀)
    (hbelow' : dirPath = k ∨ Below dirPath k) : Repairing root dt₀ (parentDir dirPath :: rest)
      (st.1.insert (parentDir dirPath) (get st.1 (parentDir dirPath) ++ [.dir dirPath]), dirPath :: st.2) where
  keys d hd := (AList.mem_insert _).mpr (.inr (h.keys d hd))
  entries d e he := (mem_get_append _).mpr (.inl (h.entries d e he))
  newKeys d hd := by
    rcases (AList.mem_insert _).mp hd with rfl | hd
    · exact .inr ⟨dirPath, (mem_get_append _).mpr (.inr ⟨rfl, rfl⟩)⟩
    · exact (h.newKeys d hd).imp_right fun ⟨c, hc⟩ => ⟨c, (mem_get_append _).mpr (.inl hc)⟩
  newEntries d e he := by
    rcases (mem_get_append _).mp he with he | ⟨rfl, rfl⟩
    · exact h.newEntries d e he
    · exact .inr ⟨dirPath, k, rfl, rfl, hbelow, hk, hbelow'⟩
  dirs c := by
    rw [mem_cons, mem_get_append, h.dirs]
    constructor
    · rintro (rfl | hc)
      · exact .inr ⟨rfl, rfl⟩
      · exact .inl hc
    · rintro (hc | ⟨-, hc⟩)
      · exact .inr hc
      · cases hc
        exact .inl rfl
  closed := h.settling.climb.settled

/-- The loop of `checkParent` settles a pending directory. -/
theorem repairing_checkParent : ∀ {fuel : Nat} {dirPath : Text} {st : DirTree × List Text},
    Repairing root dt₀ (dirPath :: rest) st → dirPath = root ∨ Below root dirPath →
    (∃ k ∈ dt₀, dirPath = k ∨ Below dirPath k) → level dirPath < level root + fuel →
    Repairing root dt₀ rest (checkParent root fuel dirPath st)
  | 0, dirPath, st, h, hroot, hk, hfuel => by
    rcases hroot with rfl | hbelow
    · exact absurd hfuel (Nat.lt_irrefl _)
    · exact absurd hfuel (Nat.lt_asymm hbelow.level_lt)
  | fuel + 1, dirPath, st, h, hroot, ⟨k, hk, hbelow'⟩, hfuel => by
    rw [checkParent]
    split_ifs with hdone
    · exact { h with closed := (h.settling.done hdone).settled }
    · have hbelow : Below root dirPath := hroot.resolve_left fun heq => hdone (.inl heq)
      have hlevel := hbelow.level_parentDir
      have hparent := hbelow.isPath.2.below_parentDir hbelow.ne_nil
      refine repairing_checkParent (h.insert hbelow hk hbelow') hbelow.parentDir ⟨k, hk, .inr ?_⟩ (by omega)
      rcases hbelow' with rfl | hbelow'
      · exact hparent
      · exact hparent.trans hbelow'

/-- `checkParents` for every order of the directories. -/
theorem repaired_checkParents {order : List Text} (horder : order.Perm dt₀.keys)
    (hlocated : ∀ d e, e ∈ get dt₀ d → d = parentDir e.remote) (hunder : ∀ d ∈ dt₀, d = root ∨ Below root d) :
    Repaired root dt₀ (checkParents root order dt₀) := by
  have hrun : ∀ {pending : List Text} {st : DirTree × List Text}, (∀ d ∈ pending, d ∈ dt₀) →
      Repairing root dt₀ pending st → Repairing root dt₀ []
        (pending.foldl (fun st dirPath => checkParent root (dirPath.length + 2) dirPath st) st) := by
    intro pending
    induction pending with
    | nil => exact fun _ h => h
    | cons dirPath rest ih =>
      intro st hpending h
      obtain ⟨hdirPath, hrest⟩ := forall_mem_cons.mp hpending
      have hlevel := level_le_length dirPath
      exact ih hrest (repairing_checkParent h (hunder _ hdirPath) ⟨dirPath, hdirPath, .inl rfl⟩ (by omega))
  have hstart : Repairing root dt₀ order (dt₀, entryDirs dt₀) :=
    { keys := fun _ hd => hd
      entries := fun _ _ he => he
      newKeys := fun _ hd => .inl hd
      newEntries := fun _ _ he => .inl he
      dirs := fun c => by
        rw [mem_entryDirs]
        refine ⟨fun ⟨d, hd⟩ => ?_, fun hc => ⟨_, hc⟩⟩
        cases hlocated d _ hd
        exact hd
      closed := fun d hd => .inr (.inr (horder.mem_iff.mpr (AList.mem_keys.mp hd))) }
  have hend := hrun (fun d hd => AList.mem_keys.mpr (horder.mem_iff.mp hd)) hstart
  refine { hend with closed := fun d hd => ?_ }
  rcases hend.closed d hd with heq | hdirs | hpending
  · exact .inl heq
  · exact .inr ((hend.dirs d).mp hdirs)
  · cases hpending

/-- What holds of the tree stays when directories are added to their parents, from those that are checked up. -/
theorem checkParents_induct {P : DirTree → Prop} {Q : Text → Prop} {order : List Text}
    (hparent : ∀ d, Q d → Q (parentDir d))
    (hadd : ∀ dt d, P dt → Q d → P (add dt (.dir d))) (horder : ∀ d ∈ order, Q d) (h : P dt) :
    P (checkParents root order dt) := by
  have hloop : ∀ fuel d (st : DirTree × List Text), Q d → P st.1 → P (checkParent root fuel d st).1 := by
    intro fuel
    induction fuel with
    | zero => exact fun d st _ h => h
    | succ fuel ih =>
      intro d st hd h
      rw [checkParent]
      split_ifs
      · exact h
      · exact ih _ _ (hparent d hd) (hadd st.1 d h hd)
  rw [checkParents]
  refine foldlRecOn (motive := fun st => P st.1) order _ ?_ fun st h d hd => hloop _ d st (horder d hd) h
  exact h

end Checking

end ZClone.Walk
