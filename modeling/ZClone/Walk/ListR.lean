import ZClone.Walk.DirTree

/-!
# A directory tree from a recursive listing

`walkRDirTree` without filters: the entries of a recursive listing come in any order, and directories may be missing if
something below them is listed.

- `Fed` is the tree after the listing, `Expected` the tree that `walkRDirTree` should return.
- `expected_walkRDirTree`: it does for unlimited levels, and for limited ones from the root if the directories of the
  last level come before the files below them. Otherwise it does only if nothing is cut off (`Tree.Expected.uncut`,
  `Tree.Expected.early`).
-/

namespace ZClone.Walk

open List
open Paths (Text IsName render)

/-! ## The code -/

section Code

variable (maxLevel : Int)

def slashes (p : Text) : Int := p.count Paths.slash

/-- The directory of an excluded file, cut off at the last level. -/
def includedDir (p : Text) : Text :=
  if 0 ≤ maxLevel then Nat.repeat parentDir (slashes p - 1 - (maxLevel - 1)).toNat (parentDir p) else parentDir p

/-- One entry of the listing. -/
def listEntry (dt : DirTree) : Entry → DirTree
  | .object p =>
    if maxLevel < 0 ∨ slashes p ≤ maxLevel - 1 then add dt (.object p)
    else
      match find dt (includedDir maxLevel p) with
      | some _ => dt
      | none => addDir dt (.dir (includedDir maxLevel p))
  | .dir p =>
    if maxLevel < 0 ∨ slashes p ≤ maxLevel - 1 then
      if slashes p = maxLevel - 1 then add dt (.dir p) else addDir dt (.dir p)
    else dt

/-- The tree when the listing has come to its end. -/
def listed (pages : List (List Entry)) : DirTree :=
  pages.foldl (fun dt entries => entries.foldl (listEntry maxLevel) dt) ∅

/-- `order` is the order in which the parents are checked. -/
def walkRDirTree (startPath : Text) (pages : List (List Entry)) (order : List Text) : DirTree :=
  let dirs := checkParents startPath order (listed maxLevel pages)
  if dirs.keys.length = 0 then dirs.insert startPath [] else dirs

end Code

/-! ## Trees and their listings -/

/-- The files and directories of a remote. -/
structure Tree where
  entries : List Entry
  paths : ∀ e ∈ entries, IsPath e.remote ∧ e.remote ≠ []
  parents : ∀ e ∈ entries, parentDir e.remote = [] ∨ .dir (parentDir e.remote) ∈ entries
  distinct : (entries.map Entry.remote).Nodup

def Tree.children (T : Tree) (d : Text) : List Entry := T.entries.filter (parentDir ·.remote = d)

/-- A recursive listing: a directory may be left out if something below it is listed. -/
structure Tree.Lists (T : Tree) (startPath : Text) (listing : List Entry) : Prop where
  sound : ∀ e ∈ listing, e ∈ T.entries ∧ Below startPath e.remote
  objects : ∀ p, .object p ∈ T.entries → Below startPath p → .object p ∈ listing
  dirs : ∀ d, .dir d ∈ T.entries → Below startPath d → .dir d ∈ listing ∨ ∃ e ∈ listing, Below d e.remote

/-- The directories of the last level are listed, before the files below them. -/
structure Tree.Early (T : Tree) (maxLevel : Int) (listing : List Entry) : Prop where
  listed : ∀ d, .dir d ∈ T.entries → level d = maxLevel → .dir d ∈ listing
  before : ∀ pre post p d, listing = pre ++ .object p :: post → Below d p → level d = maxLevel → .dir d ∈ pre

/-- Nothing is cut off: no file below the start is deeper than the last level, and every directory is above it. -/
def Tree.Uncut (T : Tree) (startPath : Text) (maxLevel : Int) : Prop :=
  (∀ p, .object p ∈ T.entries → Below startPath p → (level p : Int) ≤ maxLevel) ∧
    ∀ d, .dir d ∈ T.entries → Below startPath d → (level d : Int) < maxLevel

/-- The directories that are walked. -/
def Tree.Visits (T : Tree) (startPath : Text) (maxLevel : Int) (d : Text) : Prop :=
  d = startPath ∨ Below startPath d ∧ .dir d ∈ T.entries ∧ (maxLevel ≤ 0 ∨ (level d : Int) < level startPath + maxLevel)

/-- The walked directories with all that is in them. -/
structure Tree.Expected (T : Tree) (startPath : Text) (maxLevel : Int) (dt : DirTree) : Prop where
  keys : ∀ d, d ∈ dt ↔ T.Visits startPath maxLevel d
  entries : ∀ d ∈ dt, ∀ e, e ∈ get dt d ↔ e ∈ T.entries ∧ parentDir e.remote = d

variable {e : Entry} {seen : List Entry} {startPath d p : Text} {pages : List (List Entry)} {dt dt' : DirTree}
  {maxLevel : Int}

theorem Tree.Lists.paths {T : Tree} {listing : List Entry} (h : T.Lists startPath listing) (he : e ∈ listing) :
    IsPath e.remote ∧ e.remote ≠ [] := T.paths e (h.sound e he).1

section

variable (T : Tree) (he : e ∈ T.entries)

include T he

theorem Tree.dir_mem_of_below (hbelow : Below d e.remote) (hd : d ≠ []) : .dir d ∈ T.entries := by
  have hparent : ∀ e ∈ T.entries, Below d e.remote → .dir (parentDir e.remote) ∈ T.entries := by
    intro e he hbelow
    refine (T.parents e he).resolve_left fun hnil => ?_
    rcases hbelow.parentDir with heq | hbelow
    · exact hd (heq ▸ hnil)
    · exact hbelow.ne_nil hnil
  rcases hbelow.parentDir with heq | hbelow'
  · exact heq ▸ hparent e he hbelow
  · exact hbelow'.climb (P := fun p => .dir p ∈ T.entries) (fun p => hparent (.dir p)) (hparent e he hbelow)

/-- The parent of an entry is walked if the entry is not too deep. -/
theorem Tree.visits_parentDir (hbelow : Below startPath e.remote)
    (hlevel : maxLevel ≤ 0 ∨ (level e.remote : Int) ≤ level startPath + maxLevel) :
    T.Visits startPath maxLevel (parentDir e.remote) := by
  have hup := hbelow.level_parentDir
  refine hbelow.parentDir.imp_right fun hbelow' => ⟨hbelow', (T.parents e he).resolve_left hbelow'.ne_nil, ?_⟩
  omega

/-- What is in a walked directory is below the start. -/
theorem Tree.below_of_visits (hvisits : T.Visits startPath maxLevel (parentDir e.remote)) :
    Below startPath e.remote := by
  obtain ⟨hpath, hne⟩ := T.paths e he
  have hparent := hpath.below_parentDir hne
  rcases hvisits with heq | ⟨hbelow, -⟩
  · rwa [heq] at hparent
  · exact hbelow.trans hparent

end

/-! ## Listing -/

section Listing

variable {maxLevel : Int} {listing : List Entry}

/-- The entry is not too deep. -/
def Within (maxLevel : Int) (e : Entry) : Prop := maxLevel < 0 ∨ (level e.remote : Int) ≤ maxLevel

/-- The entry opens a directory. -/
def Opens (maxLevel : Int) (e : Entry) (d : Text) : Prop := e = .dir d ∧ (maxLevel < 0 ∨ (level d : Int) < maxLevel)

/-- The tree after some entries. -/
structure Fed (maxLevel : Int) (seen : List Entry) (dt : DirTree) : Prop where
  keys : ∀ d, d ∈ dt ↔ ∃ e ∈ seen, Within maxLevel e ∧ (parentDir e.remote = d ∨ Opens maxLevel e d)
  entries : ∀ d e, e ∈ get dt d ↔ e ∈ seen ∧ Within maxLevel e ∧ parentDir e.remote = d

theorem slashes_eq (hne : p ≠ []) : slashes p = level p - 1 := by
  rw [slashes, level, if_neg hne]
  omega

/-- One entry more. -/
theorem Fed.snoc (h : Fed maxLevel seen dt)
    (hkeys : ∀ d, d ∈ dt' ↔ d ∈ dt ∨ Within maxLevel e ∧ (parentDir e.remote = d ∨ Opens maxLevel e d))
    (hentries : ∀ d e', e' ∈ get dt' d ↔ e' ∈ get dt d ∨ Within maxLevel e ∧ d = parentDir e.remote ∧ e' = e) :
    Fed maxLevel (seen ++ [e]) dt' where
  keys d := by
    rw [hkeys, h.keys]
    simp [or_and_right, exists_or]
  entries d e' := by
    rw [hentries, h.entries, mem_append, mem_singleton, or_and_right]
    refine or_congr_right ⟨?_, ?_⟩
    · rintro ⟨he, rfl, rfl⟩
      exact ⟨rfl, he, rfl⟩
    · rintro ⟨rfl, he, rfl⟩
      exact ⟨he, rfl, rfl⟩

/-- An entry that is added. -/
theorem Fed.concat (h : Fed maxLevel seen dt) (he : Within maxLevel e)
    (hkeys : ∀ d, d ∈ dt' ↔ d ∈ dt ∨ parentDir e.remote = d ∨ Opens maxLevel e d)
    (hentries : ∀ d e', e' ∈ get dt' d ↔ e' ∈ get dt d ∨ d = parentDir e.remote ∧ e' = e) :
    Fed maxLevel (seen ++ [e]) dt' :=
  h.snoc (fun d => by simp [hkeys, he]) fun d e' => by simp [hentries, he]

/-- The directory to which an excluded file is cut off is the one on the last level. -/
theorem includedDir_spec (hout : ¬ Within maxLevel (.object p)) (hpath : IsPath p) :
    Below (includedDir maxLevel p) p ∧ (level (includedDir maxLevel p) : Int) = maxLevel := by
  rw [Within, not_or, Int.not_lt, Int.not_le, Entry.remote] at hout
  obtain ⟨hmax, hdeep⟩ := hout
  obtain ⟨xs, hnames, rfl⟩ := hpath
  have hlevel := level_render hnames
  have hxs : xs ≠ [] := by
    rintro rfl
    rw [hlevel, length_nil] at hdeep
    omega
  have hinit : ∀ x ∈ xs.dropLast, IsName x := fun x hx => hnames x (dropLast_subset xs hx)
  rw [includedDir, if_pos hmax, slashes_eq (render_names_ne_nil hnames hxs), parentDir_render hnames,
    repeat_parentDir hinit, dropLast_eq_take, take_take, length_take, hlevel]
  rw [hlevel] at hdeep
  have hm : min (min (xs.length - 1) xs.length - ((xs.length : Int) - 1 - 1 - (maxLevel - 1)).toNat) (xs.length - 1) =
      maxLevel.toNat := by omega
  rw [hm]
  have htake : ∀ x ∈ xs.take maxLevel.toNat, IsName x := fun x hx => hnames x (mem_of_mem_take hx)
  refine ⟨⟨xs.take maxLevel.toNat, xs.drop maxLevel.toNat, by rwa [take_append_drop], ?_, rfl,
    by rw [take_append_drop]⟩, ?_⟩
  · intro hnil
    have hlength := congrArg length hnil
    rw [length_drop, length_nil] at hlength
    omega
  · rw [level_render htake, length_take]
    omega

/-- What becomes of an entry: it is added, or opened as well, or left out, or the directory it is cut off to is
opened. -/
theorem listEntry_cases (maxLevel : Int) (dt : DirTree) (hne : e.remote ≠ []) :
    Within maxLevel e ∧ (listEntry maxLevel dt e = add dt e ∧ (∀ d, ¬ Opens maxLevel e d) ∨
      listEntry maxLevel dt e = addDir dt e ∧ Opens maxLevel e e.remote) ∨
    ¬ Within maxLevel e ∧
      (listEntry maxLevel dt e = dt ∧ (∀ p, e = .object p → find dt (includedDir maxLevel p) ≠ none) ∨
      ∃ p, e = .object p ∧ find dt (includedDir maxLevel p) = none ∧
        listEntry maxLevel dt e = addDir dt (.dir (includedDir maxLevel p))) := by
  have hslashes := slashes_eq hne
  have hwithin : Within maxLevel e ↔ maxLevel < 0 ∨ slashes e.remote ≤ maxLevel - 1 := by
    rw [Within]
    omega
  cases e with
  | object p =>
    rw [listEntry, hwithin]
    by_cases hin : maxLevel < 0 ∨ slashes p ≤ maxLevel - 1
    · rw [if_pos hin]
      exact .inl ⟨hin, .inl ⟨rfl, fun d hd => by cases hd.1⟩⟩
    · rw [if_neg hin]
      refine .inr ⟨hin, ?_⟩
      cases hfind : find dt (includedDir maxLevel p) with
      | none => exact .inr ⟨p, rfl, hfind, rfl⟩
      | some found =>
        refine .inl ⟨rfl, fun p' hp' => ?_⟩
        cases hp'
        exact hfind ▸ Option.some_ne_none found
  | dir p =>
    rw [Entry.remote] at hslashes
    rw [listEntry, hwithin]
    by_cases hin : maxLevel < 0 ∨ slashes p ≤ maxLevel - 1
    · rw [if_pos hin]
      refine .inl ⟨hin, ?_⟩
      split_ifs with hlast
      · refine .inl ⟨rfl, fun d hd => ?_⟩
        obtain ⟨heq, hinner⟩ := hd
        cases heq
        omega
      · exact .inr ⟨rfl, rfl, by rw [Entry.remote]; omega⟩
    · rw [if_neg hin]
      exact .inr ⟨hin, .inl ⟨rfl, fun p hp => by cases hp⟩⟩

/-- One entry more, unless a directory is opened for it. -/
theorem Fed.listEntry (h : Fed maxLevel seen dt) (hne : e.remote ≠ [])
    (hfound : ∀ p, e = .object p → ¬ Within maxLevel e → find dt (includedDir maxLevel p) ≠ none) :
    Fed maxLevel (seen ++ [e]) (listEntry maxLevel dt e) := by
  rcases listEntry_cases maxLevel dt hne with ⟨hin, ⟨heq, hclosed⟩ | ⟨heq, hopens⟩⟩ |
    ⟨hout, ⟨heq, -⟩ | ⟨p, rfl, hnone, -⟩⟩
  · rw [heq]
    exact h.concat hin (fun d => by rw [mem_add, or_iff_left (hclosed d)]) fun d e' => mem_get_add
  · rw [heq]
    refine h.concat hin (fun d => ?_) (addDir_spec hne).2
    have hd : Opens maxLevel e d ↔ e.remote = d := by
      refine ⟨fun hd => by rw [hd.1, Entry.remote], ?_⟩
      rintro rfl
      exact hopens
    rw [(addDir_spec hne).1, hd]
  · rw [heq]
    exact h.snoc (fun d => by simp [hout]) fun d e' => by simp [hout]
  · exact absurd hnone (hfound p rfl hout)

/-- The tree after each part of the listing, if no directory is opened for a file that is too deep. -/
theorem fed_foldl (hne : ∀ e ∈ listing, e.remote ≠ [])
    (hfound : ∀ pre p, pre ++ [.object p] <+: listing → ¬ Within maxLevel (.object p) →
      Fed maxLevel pre (pre.foldl (listEntry maxLevel) ∅) →
      find (pre.foldl (listEntry maxLevel) ∅) (includedDir maxLevel p) ≠ none)
    (pre : List Entry) (hpre : pre <+: listing) :
    Fed maxLevel pre (pre.foldl (listEntry maxLevel) ∅) := by
  induction pre using reverseRecOn with
  | nil =>
    refine ⟨fun d => ?_, fun d e => ?_⟩
    · simp
    · simp [get]
  | append_singleton pre e ih =>
    have h := ih ((prefix_append _ _).trans hpre)
    rw [foldl_append, foldl_cons, foldl_nil]
    refine h.listEntry (hne e (hpre.subset (by simp))) ?_
    rintro p rfl hdeep
    exact hfound pre p hpre hdeep h

theorem listed_eq (maxLevel : Int) (pages : List (List Entry)) :
    listed maxLevel pages = pages.flatten.foldl (listEntry maxLevel) ∅ := foldl_flatten.symm

/-- The directories of the last level are found, if they come early. -/
theorem fed_listed (hmax : maxLevel ≠ 0) {T : Tree}
    (hlists : T.Lists startPath pages.flatten) (hearly : 0 < maxLevel → T.Early maxLevel pages.flatten) :
    Fed maxLevel pages.flatten (listed maxLevel pages) := by
  rw [listed_eq]
  refine fed_foldl (fun e he => (hlists.paths he).2) (fun pre p hpre hdeep h => ?_) _ (prefix_refl _)
  have hmem : .object p ∈ pages.flatten := hpre.subset (by simp)
  have hspec := includedDir_spec hdeep (hlists.paths hmem).1
  rw [Within, not_or, Entry.remote] at hdeep
  obtain ⟨post, heq⟩ := hpre
  have hbefore : .dir (includedDir maxLevel p) ∈ pre :=
    (hearly (by omega)).before pre post p _ (by rw [← heq, append_assoc, singleton_append]) hspec.1 hspec.2
  rw [← Option.isSome_iff_ne_none]
  refine find_isSome (e := .dir (includedDir maxLevel p)) ((h.entries _ _).mpr ⟨hbefore, .inr ?_, rfl⟩)
  rw [Entry.remote]
  omega

end Listing

/-! ## The result -/

section Result

variable {T : Tree} {startPath : Text} {maxLevel : Int} {listing : List Entry} {dt₀ dt : DirTree}

/-- From every directory of a repaired tree the directories on the way up to the root are there. -/
theorem Repaired.mem_of_below (h : Repaired startPath dt₀ dt) {k : Text} (hd : d = startPath ∨ Below startPath d)
    (hk : k ∈ dt) (hbelow : d = k ∨ Below d k) : d ∈ dt := by
  rcases hbelow with rfl | hbelow
  · exact hk
  · refine hbelow.climb (P := (· ∈ dt)) (fun p hp hbelow => ?_) hk
    have hne : p ≠ startPath := by
      rcases hd with rfl | hd
      · exact hbelow.ne
      · exact (hd.trans hbelow).ne
    exact mem_of_mem_get ((h.closed p hp).resolve_left hne)

/-- What the listing opens is walked. -/
theorem Fed.visits (h : Fed maxLevel listing dt) (hlists : T.Lists startPath listing) (hd : d ∈ dt) :
    T.Visits startPath maxLevel d := by
  obtain ⟨e, he, hwithin, hwhy⟩ := (h.keys d).mp hd
  obtain ⟨hmem, hbelow⟩ := hlists.sound e he
  rcases hwhy with rfl | ⟨rfl, hinner⟩
  · rw [Within] at hwithin
    exact T.visits_parentDir hmem hbelow (by omega)
  · exact .inr ⟨hbelow, hmem, by omega⟩

section

variable (h : Repaired startPath dt₀ dt) (hfed : Fed maxLevel listing dt₀) (hlists : T.Lists startPath listing)

include h hfed hlists

/-- Every entry of the repaired tree is one of the remote, and not too deep. -/
theorem Repaired.sound (hlevel : maxLevel < 0 ∨ startPath = [] ∧ 1 ≤ maxLevel) (he : e ∈ get dt d) :
    e ∈ T.entries ∧ parentDir e.remote = d ∧ Below startPath e.remote ∧ Within maxLevel e := by
  rcases h.newEntries d e he with hold | ⟨c, k, rfl, rfl, hbelow, hk, hck⟩
  · obtain ⟨hmem, hwithin, hparent⟩ := (hfed.entries d e).mp hold
    obtain ⟨hentry, hbelow⟩ := hlists.sound e hmem
    exact ⟨hentry, hparent, hbelow, hwithin⟩
  · have hvisits := hfed.visits hlists hk
    have hkne : k ≠ startPath := by
      rintro rfl
      rcases hck with rfl | hck
      · exact hbelow.ne rfl
      · exact (hbelow.trans hck).ne rfl
    obtain ⟨-, hdir, hinner⟩ := hvisits.resolve_left hkne
    have hle := level_le_of_below hck
    refine ⟨?_, rfl, hbelow, ?_⟩
    · rcases hck with rfl | hck
      · exact hdir
      · exact T.dir_mem_of_below hdir hck hbelow.ne_nil
    · rw [Within, Entry.remote]
      rcases hlevel with hlevel | ⟨rfl, hpos⟩
      · exact .inl hlevel
      · have hzero : level [] = 0 := rfl
        omega

/-- What is walked is in the repaired tree. -/
theorem Repaired.mem_of_visits (hearly : 0 < maxLevel → T.Early maxLevel listing)
    (hbelow : Below startPath d) (hdir : .dir d ∈ T.entries) (hinner : maxLevel < 0 ∨ (level d : Int) < maxLevel) :
    d ∈ dt := by
  -- An entry of the listing below `d` that is not too deep opens its own directory, and from there it goes up to `d`.
  have hclimb : ∀ e ∈ listing, Within maxLevel e → Below d e.remote → d ∈ dt := by
    intro e he hwithin hde
    have hparent : parentDir e.remote ∈ dt := h.keys _ ((hfed.keys _).mpr ⟨e, he, hwithin, .inl rfl⟩)
    exact h.mem_of_below (.inr hbelow) hparent (hde.parentDir.imp_left Eq.symm)
  rcases hlists.dirs d hdir hbelow with hlisted | ⟨e, he, hde⟩
  · refine h.keys d ((hfed.keys d).mpr ⟨_, hlisted, ?_, .inr ⟨rfl, hinner⟩⟩)
    rw [Within, Entry.remote]
    omega
  · by_cases hwithin : Within maxLevel e
    · exact hclimb e he hwithin hde
    · rw [Within, not_or] at hwithin
      obtain ⟨a, hda, hae, hlast⟩ := hde.exists_between (m := maxLevel.toNat) (by omega) (by omega)
      have ha : .dir a ∈ T.entries := T.dir_mem_of_below (hlists.sound e he).1 hae hda.ne_nil
      refine hclimb (.dir a) ((hearly (by omega)).listed a ha (by omega)) (.inr ?_) hda
      rw [Entry.remote]
      omega

/-- Every entry of a walked directory is in the repaired tree. -/
theorem Repaired.complete (hlevel : maxLevel < 0 ∨ startPath = [] ∧ 1 ≤ maxLevel)
    (hearly : 0 < maxLevel → T.Early maxLevel listing) (he : e ∈ T.entries)
    (hvisits : T.Visits startPath maxLevel (parentDir e.remote)) : e ∈ get dt (parentDir e.remote) := by
  have hbelow := T.below_of_visits he hvisits
  have hup := hbelow.level_parentDir
  have hwithin : Within maxLevel e := by
    rw [Within]
    rcases hlevel with hlevel | ⟨rfl, hpos⟩
    · exact .inl hlevel
    · have hzero : level [] = 0 := rfl
      rcases hvisits with heq | ⟨-, -, hinner⟩
      · rw [heq] at hup
        omega
      · omega
  have hlisted : e ∈ listing → e ∈ get dt (parentDir e.remote) :=
    fun hmem => h.entries _ _ ((hfed.entries _ _).mpr ⟨hmem, hwithin, rfl⟩)
  cases e with
  | object p => exact hlisted (hlists.objects p he hbelow)
  | dir c =>
    rw [Within, Entry.remote] at hwithin
    by_cases hinner : maxLevel < 0 ∨ (level c : Int) < maxLevel
    · have hmem := h.mem_of_visits hfed hlists hearly hbelow he hinner
      exact (h.closed c hmem).resolve_left hbelow.ne
    · exact hlisted ((hearly (by omega)).listed c he (by omega))

end

/-- The tree that is returned has the entries of the repaired one, and the start path if that is empty. -/
theorem walkRDirTree_spec (maxLevel : Int) (startPath : Text) (pages : List (List Entry)) (order : List Text)
    (d : Text) :
    (d ∈ walkRDirTree maxLevel startPath pages order ↔ d ∈ checkParents startPath order (listed maxLevel pages) ∨
      (checkParents startPath order (listed maxLevel pages)).keys.length = 0 ∧ d = startPath) ∧
    get (walkRDirTree maxLevel startPath pages order) d =
      get (checkParents startPath order (listed maxLevel pages)) d := by
  rw [walkRDirTree]
  generalize checkParents startPath order (listed maxLevel pages) = dt
  split_ifs with hempty
  · refine ⟨by rw [AList.mem_insert, and_iff_right hempty, or_comm], ?_⟩
    by_cases hd : d = startPath
    · subst hd
      rw [get_insert_self, eq_comm, eq_nil_iff_forall_not_mem]
      intro e he
      have hmem := AList.mem_keys.mp (mem_of_mem_get he)
      rw [length_eq_zero_iff.mp hempty] at hmem
      cases hmem
    · rw [get_insert_ne hd]
  · exact ⟨(or_iff_left fun h => hempty h.1).symm, rfl⟩

section

variable {order : List Text} (hlists : T.Lists startPath pages.flatten)
  (horder : order.Perm (listed maxLevel pages).keys)

include hlists horder

theorem Fed.repaired (hfed : Fed maxLevel pages.flatten (listed maxLevel pages)) :
    Repaired startPath (listed maxLevel pages) (checkParents startPath order (listed maxLevel pages)) :=
  repaired_checkParents horder (fun d e he => ((hfed.entries d e).mp he).2.2.symm) fun _ hd =>
    (hfed.visits hlists hd).imp_right fun h => h.1

/-- `walkRDirTree` returns the walked directories with all that is in them. -/
theorem expected_walkRDirTree (hlevel : maxLevel < 0 ∨ startPath = [] ∧ 1 ≤ maxLevel ∧ T.Early maxLevel pages.flatten) :
    T.Expected startPath maxLevel (walkRDirTree maxLevel startPath pages order) := by
  have hearly : 0 < maxLevel → T.Early maxLevel pages.flatten :=
    fun hpos => (hlevel.resolve_left (by omega)).2.2
  replace hlevel : maxLevel < 0 ∨ startPath = [] ∧ 1 ≤ maxLevel := hlevel.imp_right fun h => ⟨h.1, h.2.1⟩
  have hfed := fed_listed (by omega) hlists hearly
  have hrepaired := hfed.repaired hlists horder
  have hspec := walkRDirTree_spec maxLevel startPath pages order
  generalize checkParents startPath order (listed maxLevel pages) = dt at hrepaired hspec
  have hsound : ∀ d ∈ dt, T.Visits startPath maxLevel d := by
    intro d hd
    rcases hrepaired.newKeys d hd with hold | ⟨c, hc⟩
    · exact hfed.visits hlists hold
    · obtain ⟨hmem, rfl, hbelow, hwithin⟩ := hrepaired.sound hfed hlists hlevel hc
      rw [Within] at hwithin
      exact T.visits_parentDir hmem hbelow (by omega)
  have hstart : startPath ∈ walkRDirTree maxLevel startPath pages order := by
    rw [(hspec _).1]
    by_cases hempty : dt.keys.length = 0
    · exact .inr ⟨hempty, rfl⟩
    · obtain ⟨k, hk⟩ := exists_mem_of_length_pos (Nat.pos_of_ne_zero hempty)
      have hk' : k ∈ dt := AList.mem_keys.mpr hk
      exact .inl (hrepaired.mem_of_below (.inl rfl) hk' ((hsound k hk').imp Eq.symm fun h => h.1))
  have hkeys : ∀ d, d ∈ walkRDirTree maxLevel startPath pages order ↔ T.Visits startPath maxLevel d := by
    intro d
    constructor
    · intro hd
      rcases (hspec d).1.mp hd with hd | ⟨-, rfl⟩
      · exact hsound d hd
      · exact .inl rfl
    · rintro (rfl | ⟨hbelow, hdir, hinner⟩)
      · exact hstart
      · refine (hspec d).1.mpr (.inl (hrepaired.mem_of_visits hfed hlists hearly hbelow hdir ?_))
        rcases hlevel with hlevel | ⟨rfl, hpos⟩
        · exact .inl hlevel
        · have hzero : level [] = 0 := rfl
          omega
  refine ⟨hkeys, fun d hd e => ?_⟩
  rw [(hspec d).2]
  constructor
  · intro he
    obtain ⟨hmem, hparent, -⟩ := hrepaired.sound hfed hlists hlevel he
    exact ⟨hmem, hparent⟩
  · rintro ⟨hmem, rfl⟩
    exact hrepaired.complete hfed hlists hlevel hearly hmem ((hkeys _).mp hd)

/-- If nothing is cut off, the levels could as well be unlimited. -/
theorem expected_of_uncut (huncut : T.Uncut startPath maxLevel) :
    T.Expected startPath maxLevel (walkRDirTree maxLevel startPath pages order) := by
  have hentry : ∀ dt, ∀ e ∈ pages.flatten, listEntry maxLevel dt e = listEntry (-1) dt e := by
    intro dt e he
    obtain ⟨hmem, hbelow⟩ := hlists.sound e he
    have hslashes := slashes_eq (T.paths e hmem).2
    cases e with
    | object p =>
      have hle := huncut.1 p hmem hbelow
      rw [Entry.remote] at hslashes
      rw [listEntry, listEntry, if_pos (.inr (by omega)), if_pos (.inl (by decide))]
    | dir p =>
      have hlt := huncut.2 p hmem hbelow
      rw [Entry.remote] at hslashes
      rw [listEntry, listEntry, if_pos (.inr (by omega)), if_neg (by omega), if_pos (.inl (by decide)),
        if_neg (by omega)]
  have hlisted : listed maxLevel pages = listed (-1) pages := by
    rw [listed_eq, listed_eq]
    exact foldl_ext _ _ _ hentry
  have hexpected := expected_walkRDirTree hlists (hlisted ▸ horder) (.inl (by decide))
  have hsame : walkRDirTree maxLevel startPath pages order = walkRDirTree (-1) startPath pages order := by
    rw [walkRDirTree, walkRDirTree, hlisted]
  rw [hsame]
  refine ⟨fun d => (hexpected.keys d).trans (or_congr_right ?_), hexpected.entries⟩
  refine and_congr_right fun hbelow => and_congr_right fun hdir => ⟨fun _ => ?_, fun _ => .inl (by decide)⟩
  have hlt := huncut.2 d hdir hbelow
  omega

end

end Result

/-! ## The other direction -/

section Levels

variable {T : Tree} {startPath : Text} {maxLevel a n : Int} {order : List Text}

/-- No directory is deeper than `a`, and no entry deeper than `n`. -/
structure Shallow (a n : Int) (dt : DirTree) : Prop where
  keys : ∀ d ∈ dt, IsPath d ∧ (level d : Int) ≤ a
  entries : ∀ d e, e ∈ get dt d → (level e.remote : Int) ≤ n

theorem Shallow.add (h : Shallow a n dt)
    (hparent : IsPath (parentDir e.remote) ∧ (level (parentDir e.remote) : Int) ≤ a)
    (hlevel : (level e.remote : Int) ≤ n) : Shallow a n (add dt e) where
  keys d hd := by
    rcases mem_add.mp hd with hd | rfl
    · exact h.keys d hd
    · exact hparent
  entries d e' he := by
    rcases mem_get_add.mp he with he | ⟨-, rfl⟩
    · exact h.entries d e' he
    · exact hlevel

theorem Shallow.addDir (h : Shallow a n dt) (hpath : IsPath e.remote) (hlevel : (level e.remote : Int) ≤ a)
    (han : a ≤ n) :
    Shallow a n (addDir dt e) := by
  by_cases hne : e.remote = []
  · rwa [Walk.addDir, if_pos hne]
  obtain ⟨hparent, hup⟩ := hpath.parentDir
  have hadd : Shallow a n (Walk.add dt e) := h.add ⟨hparent, by omega⟩ (by omega)
  refine ⟨fun d hd => ?_, fun d e' he => hadd.entries d e' (mem_get_add.mpr (((addDir_spec hne).2 d e').mp he))⟩
  rcases ((addDir_spec hne).1 d).mp hd with hd | rfl | rfl
  · exact h.keys d hd
  · exact hadd.keys _ (mem_add.mpr (.inr rfl))
  · exact ⟨hpath, hlevel⟩

/-- The tree that is returned is not deeper than the last level, whatever is listed. It has no directory on the last
level if nothing that is listed is deeper. -/
theorem shallow_walkRDirTree (hmax : 0 ≤ maxLevel) (hlists : T.Lists startPath pages.flatten)
    (horder : order.Perm (listed maxLevel pages).keys)
    (ha : a = maxLevel ∨ a = maxLevel - 1 ∧ ∀ e ∈ pages.flatten, Within maxLevel e) :
    (∀ d ∈ walkRDirTree maxLevel startPath pages order, d = startPath ∨ (level d : Int) ≤ a) ∧
      ∀ d e, e ∈ get (walkRDirTree maxLevel startPath pages order) d → (level e.remote : Int) ≤ maxLevel := by
  have hlisted : Shallow a maxLevel (listed maxLevel pages) := by
    rw [listed_eq]
    refine foldlRecOn _ _ ⟨nofun, fun d e he => absurd he (by simp [get])⟩ fun dt h e he => ?_
    obtain ⟨hpath, hne⟩ := hlists.paths he
    have hup := hpath.level_parentDir hne
    rcases listEntry_cases maxLevel dt hne with ⟨hin, ⟨heq, -⟩ | ⟨heq, -, hinner⟩⟩ | ⟨hout, ⟨heq, -⟩ | ⟨p, rfl, -, heq⟩⟩
    · rw [heq]
      rw [Within] at hin
      exact h.add ⟨hpath.parentDir.1, by omega⟩ (by omega)
    · rw [heq]
      exact h.addDir hpath (by omega) (by omega)
    · rwa [heq]
    · rw [heq]
      have ha' : a = maxLevel := ha.resolve_right fun ha => hout (ha.2 _ he)
      have hspec := includedDir_spec hout hpath
      exact h.addDir hspec.1.isPath.1 (by rw [Entry.remote]; omega) (by omega)
  have hchecked : Shallow a maxLevel (checkParents startPath order (listed maxLevel pages)) := by
    refine checkParents_induct (Q := fun d => IsPath d ∧ (level d : Int) ≤ a) (fun d hd => ?_) (fun dt d h hd => ?_)
      (fun d hd => hlisted.keys d (AList.mem_keys.mpr (horder.mem_iff.mp hd))) hlisted
    · have hup := hd.1.parentDir
      exact ⟨hup.1, by omega⟩
    · have hup := hd.1.parentDir
      exact h.add ⟨hup.1, by rw [Entry.remote]; omega⟩ (by rw [Entry.remote]; omega)
  have hspec := walkRDirTree_spec maxLevel startPath pages order
  refine ⟨fun d hd => ?_, fun d e he => hchecked.entries d e ((hspec d).2 ▸ he)⟩
  rcases (hspec d).1.mp hd with hd | ⟨-, rfl⟩
  · exact .inr (hchecked.keys d hd).2
  · exact .inl rfl

/-- The directories that the listing opens are still there at the end. -/
theorem mem_walkRDirTree {pre : List Entry} (hlists : T.Lists startPath pages.flatten) (hpre : pre <+: pages.flatten)
    (hd : d ∈ pre.foldl (listEntry maxLevel) ∅) : d ∈ walkRDirTree maxLevel startPath pages order := by
  obtain ⟨post, hpost⟩ := hpre
  rw [(walkRDirTree_spec _ _ _ _ _).1]
  refine .inl (checkParents_induct (P := (d ∈ ·)) (Q := fun _ => True) (fun _ _ => trivial)
    (fun _ _ h _ => mem_add.mpr (.inl h)) (fun _ _ => trivial) ?_)
  rw [listed_eq, ← hpost, foldl_append]
  refine foldlRecOn (motive := (d ∈ ·)) _ _ hd fun dt h e he => ?_
  have hne := (hlists.paths (hpost ▸ mem_append_right _ he)).2
  rcases listEntry_cases maxLevel dt hne with ⟨-, ⟨heq, -⟩ | ⟨heq, -⟩⟩ | ⟨-, ⟨heq, -⟩ | ⟨_, -, -, heq⟩⟩
  · rw [heq]
    exact mem_add.mpr (.inl h)
  · rw [heq]
    exact mem_addDir h
  · rwa [heq]
  · rw [heq]
    exact mem_addDir h

section

variable (hlists : T.Lists startPath pages.flatten) (horder : order.Perm (listed maxLevel pages).keys)
  (h : T.Expected startPath maxLevel (walkRDirTree maxLevel startPath pages order))

include hlists horder h

/-- Below a start path, or without levels, the right tree is one of which nothing is cut off. -/
theorem Tree.Expected.uncut (hmax : 0 ≤ maxLevel) (hstart : startPath ≠ [] ∨ maxLevel = 0) :
    T.Uncut startPath maxLevel := by
  have hshallow : ∀ e ∈ T.entries, Below startPath e.remote →
      maxLevel ≤ 0 ∨ (level e.remote : Int) ≤ level startPath + maxLevel → (level e.remote : Int) ≤ maxLevel := by
    intro e he hbelow hlevel
    have hparent := (h.keys _).mpr (T.visits_parentDir he hbelow hlevel)
    exact (shallow_walkRDirTree hmax hlists horder (.inl rfl)).2 _ e ((h.entries _ hparent e).mpr ⟨he, rfl⟩)
  have hwithin : ∀ e ∈ T.entries, Below startPath e.remote → (level e.remote : Int) ≤ maxLevel := by
    intro e he hbelow
    by_contra hdeep
    by_cases hle : maxLevel ≤ 0 ∨ (level e.remote : Int) ≤ level startPath + maxLevel
    · exact hdeep (hshallow e he hbelow hle)
    · have hpos := level_pos (hstart.resolve_right (by omega))
      -- The directory on the last level of the other way is too deep for this one.
      obtain ⟨c, hc, hce, hlast⟩ := hbelow.exists_between (m := level startPath + maxLevel.toNat) (by omega) (by omega)
      have hcut := hshallow (.dir c) (T.dir_mem_of_below he hce hc.ne_nil) hc (.inr (by rw [Entry.remote]; omega))
      rw [Entry.remote] at hcut
      omega
  refine ⟨fun p hp hbelow => hwithin _ hp hbelow, fun d hd hbelow => ?_⟩
  have hle : (level d : Int) ≤ maxLevel := hwithin _ hd hbelow
  have hlt := hbelow.level_lt
  have hmem : d ∈ walkRDirTree maxLevel startPath pages order := by
    refine (h.keys d).mpr (.inr ⟨hbelow, hd, ?_⟩)
    rcases hstart with hstart | hzero
    · have hpos := level_pos hstart
      omega
    · omega
  have hkeys := (shallow_walkRDirTree hmax hlists horder (.inr ⟨rfl, fun e he =>
    .inr (hwithin e (hlists.sound e he).1 (hlists.sound e he).2)⟩)).1 d hmem
  have hlast := hkeys.resolve_left hbelow.ne
  omega

/-- From the root, the right tree is one whose directories of the last level come early. -/
theorem Tree.Expected.early (hmax : 1 ≤ maxLevel) (hstart : startPath = []) : T.Early maxLevel pages.flatten := by
  subst hstart
  have hzero : level [] = 0 := rfl
  have hclosed : ∀ d ∈ walkRDirTree maxLevel [] pages order, (level d : Int) < maxLevel := by
    intro d hd
    rcases (h.keys d).mp hd with rfl | ⟨-, -, hinner⟩ <;> omega
  have hfound : ∀ pre p, pre ++ [.object p] <+: pages.flatten → ¬ Within maxLevel (.object p) →
      find (pre.foldl (listEntry maxLevel) ∅) (includedDir maxLevel p) ≠ none := by
    intro pre p hpre hdeep hnone
    have hpath := hlists.paths (e := .object p) (hpre.subset (by simp))
    rcases listEntry_cases maxLevel (pre.foldl (listEntry maxLevel) ∅) hpath.2 with
      ⟨hin, -⟩ | ⟨-, ⟨-, hsome⟩ | ⟨p', hp', -, heq⟩⟩
    · exact hdeep hin
    · exact hsome p rfl hnone
    · cases hp'
      have hspec := includedDir_spec hdeep hpath.1
      have hne : includedDir maxLevel p ≠ [] := fun hnil => by
        rw [hnil] at hspec
        omega
      refine absurd (hclosed _ (mem_walkRDirTree hlists hpre ?_)) (Int.not_lt.mpr (Int.le_of_eq hspec.2.symm))
      rw [foldl_append, foldl_cons, foldl_nil, heq]
      exact ((addDir_spec (e := .dir (includedDir maxLevel p)) hne).1 _).mpr (.inr (.inr rfl))
  have hfed := fed_foldl (fun e he => (hlists.paths he).2) fun pre p hpre hdeep _ => hfound pre p hpre hdeep
  refine ⟨fun d hd hlast => ?_, fun pre post p d heq hbelow hlast => ?_⟩
  · have hpath := T.paths (.dir d) hd
    have hlisted := hfed _ (prefix_refl _)
    rw [← listed_eq] at hlisted
    have hparent :=
      (h.keys _).mpr (T.visits_parentDir hd (hpath.1.below_nil hpath.2) (.inr (by rw [Entry.remote]; omega)))
    have hentry := (h.entries _ hparent (.dir d)).mpr ⟨hd, rfl⟩
    rw [(walkRDirTree_spec _ _ _ _ _).2] at hentry
    rcases (hlisted.repaired hlists horder).newEntries _ _ hentry with hold | ⟨c, k, hc, -, -, hk, hck⟩
    · exact ((hlisted.entries _ _).mp hold).1
    · cases hc
      have hle := level_le_of_below hck
      rcases hlisted.visits hlists hk with rfl | ⟨-, -, hinner⟩ <;> omega
  · have hpre : pre ++ [.object p] <+: pages.flatten := ⟨post, by rw [heq, append_assoc, singleton_append]⟩
    have hmem := (hlists.sound _ (hpre.subset (a := .object p) (by simp))).1
    have hlt := hbelow.level_lt
    have hdeep : ¬ Within maxLevel (.object p) := by
      rw [Within, Entry.remote]
      omega
    have hspec := includedDir_spec hdeep hbelow.isPath.2
    obtain ⟨e, he⟩ := Option.ne_none_iff_exists'.mp (hfound pre p hpre hdeep)
    rw [hspec.1.unique hbelow (by omega)] at he
    have hremote : e.remote = d := by simpa using find?_some he
    have hin := (((hfed pre ((prefix_append _ _).trans hpre)).entries _ _).mp (mem_of_find?_eq_some he)).1
    have hdir : .dir d ∈ T.entries := T.dir_mem_of_below hmem hbelow fun hnil => by
      rw [hnil] at hlast
      omega
    have heq' : e = .dir d :=
      inj_on_of_nodup_map T.distinct (hlists.sound e (hpre.subset (by simp [hin]))).1 hdir hremote
    rwa [← heq']

end

end Levels

end ZClone.Walk
