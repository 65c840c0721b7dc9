import Mathlib.Algebra.BigOperators.Group.List.Basic
import ZClone.Walk.Parents

/-!
# Pruning directory trees

`DirTree.Prune` takes directories and all that is below them out of a tree.

- `takeOut` is the loop over the parent's listing. Its `break` leaves the switch and not the loop, so that the loop goes
  on over the slice as it was at the start, and a second entry of the same name can be past the end of the shortened
  slice.
- `pruneLoop` is the loop over the names, which adds the directories below those it removes. Both loops range over a
  map, so the order of the names and the choice of the next one are parameters.
- `Pruned` is what is to be left. A tree that lists each of the names at most once is left so if and only if every
  directory below one of the names is listed by its parent (`prune_pruned_iff`).
-/

namespace ZClone.Walk

open List
open Paths (Text ascii)

section Code

/-- The positions still to be looked at, the position, the array under the slice and the length of the slice. There is
no result if an index is out of range. -/
def takeOut (d : Text) : Nat → Nat → List Entry → Nat → Option (List Entry)
  | 0, _, array, len => some (array.take len)
  | todo + 1, i, array, len =>
    if array[i]? = some (.dir d) then
      if i < len then takeOut d todo (i + 1) (array.set i (array.getD (len - 1) (.dir d))) (len - 1) else none
    else takeOut d todo (i + 1) array len

/-- A name is taken out of the listing of its parent. -/
def removeNamed (dt : DirTree) (d : Text) : Option DirTree :=
  if d = [] then some dt
  else
    match dt.lookup (parentDir d) with
    | none => some dt
    | some entries =>
      (takeOut d entries.length 0 entries entries.length).map fun entries => dt.insert (parentDir d) entries

/-- The directories that `d` lists are to be removed next; `d` is. -/
def pruneDir (st : DirTree × List Text) (d : Text) : DirTree × List Text :=
  (st.1.erase d, (st.2 ++ (get st.1 d).filterMap Entry.isDir?).filter (· ≠ d))

def pruneLoop (next : DirTree × List Text → Nat) : Nat → DirTree × List Text → Option DirTree
  | _, (dt, []) => some dt
  | 0, (_, _ :: _) => none
  | fuel + 1, (dt, d :: names) =>
    pruneLoop next fuel (pruneDir (dt, d :: names) ((d :: names).getD (next (dt, d :: names)) d))

def countEntries (dt : DirTree) : Nat := (dt.keys.map fun d => (get dt d).length).sum

/-- Every name but the given ones comes from an entry that is removed with its listing. -/
def prune (next : DirTree × List Text → Nat) (names : List Text) (dt : DirTree) : Option DirTree := do
  let dt ← names.foldlM removeNamed dt
  pruneLoop next (names.length + countEntries dt) (dt, names)

inductive Call where
  | addEntry (entry : Entry)
  | addDir (entry : Entry)

def Call.apply (dt : DirTree) : Call → DirTree
  | .addEntry entry => Walk.addEntry dt entry
  | .addDir entry => Walk.addDir dt entry

def build (calls : List Call) : DirTree := calls.foldl Call.apply ∅

end Code

theorem located_build (calls : List Call) : Located (build calls) := by
  suffices ∀ dt, Located dt → Located (calls.foldl Call.apply dt) from this ∅ located_empty
  induction calls with
  | nil => exact fun _ h => h
  | cons call calls ih =>
    intro dt h
    refine ih _ ?_
    cases call with
    | addEntry entry => exact h.addEntry entry
    | addDir entry => exact h.addDir entry

/-! ## Taking an entry out of a listing -/

section TakeOut

variable {d : Text} {entries : List Entry}

theorem takeOut_skip (array : List Entry) (len : Nat) : ∀ (n i todo : Nat),
    (∀ j, i ≤ j → j < i + n → array[j]? ≠ some (.dir d)) →
    takeOut d (n + todo) i array len = takeOut d todo (i + n) array len
  | 0, _, _, _ => by rw [Nat.zero_add, Nat.add_zero]
  | n + 1, i, todo, h => by
    rw [Nat.add_right_comm, takeOut, if_neg (h i le_rfl (by omega)),
      takeOut_skip array len n (i + 1) todo fun j hj hlt => h j (by omega) (by omega), Nat.add_right_comm,
        Nat.add_assoc]

theorem takeOut_of_notMem (h : .dir d ∉ entries) :
    takeOut d entries.length 0 entries entries.length = some entries := by
  have hskip := takeOut_skip (d := d) entries entries.length entries.length 0 0 fun j _ _ hj => h (mem_of_getElem? hj)
  rw [Nat.add_zero] at hskip
  rw [hskip, takeOut, take_length]

/-- The last entry takes the place of the one that is taken out. -/
theorem takeOut_of_once {pre post : List Entry} (hpre : .dir d ∉ pre) (hpost : .dir d ∉ post) :
    ∃ entries, takeOut d (pre ++ .dir d :: post).length 0 (pre ++ .dir d :: post) (pre ++ .dir d :: post).length =
      some entries ∧ entries.Perm (pre ++ post) := by
  have hlength : (pre ++ .dir d :: post).length = pre.length + (post.length + 1) := by simp
  have hbefore := takeOut_skip (d := d) (pre ++ .dir d :: post) (pre.length + (post.length + 1)) pre.length 0
    (post.length + 1) fun j _ hj heq => by
      rw [getElem?_append_left (by omega)] at heq
      exact hpre (mem_of_getElem? heq)
  rw [hlength, hbefore, Nat.zero_add, takeOut, if_pos (by simp), if_pos (by omega)]
  generalize hlast : (pre ++ Entry.dir d :: post).getD (pre.length + (post.length + 1) - 1) (.dir d) = last
  have hset : (pre ++ Entry.dir d :: post).set pre.length last = pre ++ last :: post := by simp
  have hafter := takeOut_skip (d := d) (pre ++ last :: post) (pre.length + (post.length + 1) - 1) post.length
    (pre.length + 1) 0 fun j hj _ heq => by
      rw [getElem?_append_right (by omega), getElem?_cons, if_neg (by omega)] at heq
      exact hpost (mem_of_getElem? heq)
  rw [Nat.add_zero] at hafter
  rw [hset, hafter, takeOut]
  refine ⟨_, rfl, ?_⟩
  rcases eq_nil_or_concat' post with rfl | ⟨init, z, rfl⟩
  · simp
  · have hz : last = z := by
      rw [← hlast]
      simp
    rw [hz]
    have htake : (pre ++ z :: (init ++ [z])).take (pre.length + ((init ++ [z]).length + 1) - 1) = pre ++ z :: init := by
      have hsplit : pre ++ z :: (init ++ [z]) = (pre ++ z :: init) ++ [z] := by simp
      rw [hsplit]
      refine take_left' ?_
      simp
    rw [htake]
    exact (perm_append_singleton z init).symm.append_left pre

/-- An entry that is listed at most once is taken out; all others stay. -/
theorem takeOut_spec (h : entries.count (.dir d) ≤ 1) :
    ∃ entries', takeOut d entries.length 0 entries entries.length = some entries' ∧
      entries'.Perm (entries.filter (· ≠ .dir d)) := by
  have hkeep : ∀ {l : List Entry}, .dir d ∉ l → l.filter (· ≠ .dir d) = l := by
    refine fun hl => filter_eq_self.mpr fun e he => decide_eq_true ?_
    rintro rfl
    exact hl he
  by_cases hmem : .dir d ∈ entries
  · obtain ⟨pre, post, rfl, hpre⟩ := eq_append_cons_of_mem hmem
    rw [count_append, count_cons_self, count_eq_zero.mpr hpre] at h
    have hpost : .dir d ∉ post := count_eq_zero.mp (by omega)
    rw [filter_append, filter_cons_of_neg (by simp), hkeep hpre, hkeep hpost]
    exact takeOut_of_once hpre hpost
  · refine ⟨entries, takeOut_of_notMem hmem, ?_⟩
    rw [hkeep hmem]

end TakeOut

/-! ## Taking the names out of the listings -/

section Names

variable {dt dt' : DirTree} {names : List Text} {d : Text} {keep : Entry → Bool}

/-- Each of the names is listed at most once. -/
def Once (dt : DirTree) (names : List Text) : Prop := ∀ d ∈ names, (get dt (parentDir d)).count (.dir d) ≤ 1

/-- The tree `dt'` is `dt` without the entries that `keep` refuses. -/
structure Kept (keep : Entry → Bool) (dt dt' : DirTree) : Prop where
  keys : ∀ k, k ∈ dt' ↔ k ∈ dt
  entries : ∀ k, (get dt' k).Perm ((get dt k).filter keep)

theorem Kept.located (h : Kept keep dt dt') (hlocated : Located dt) : Located dt' :=
  fun k e he => hlocated k e (mem_of_mem_filter ((h.entries k).mem_iff.mp he))

theorem Kept.once (h : Kept keep dt dt') (honce : Once dt names) : Once dt' names := by
  intro d hd
  rw [(h.entries _).count_eq]
  exact (filter_sublist.count_le _).trans (honce d hd)

theorem removeNamed_spec (hlocated : Located dt) (hone : (get dt (parentDir d)).count (.dir d) ≤ 1) :
    ∃ dt', removeNamed dt d = some dt' ∧ Kept (fun e => e ≠ .dir d ∨ d = []) dt dt' := by
  rw [removeNamed]
  by_cases hnil : d = []
  · exact ⟨dt, if_pos hnil, fun _ => Iff.rfl, fun k => by simp [hnil]⟩
  · rw [if_neg hnil]
    have helsewhere : ∀ k ≠ parentDir d, (get dt k).filter (fun e => e ≠ .dir d ∨ d = []) = get dt k := by
      refine fun k hk => filter_eq_self.mpr fun e he => decide_eq_true (.inl ?_)
      rintro rfl
      exact hk (hlocated k _ he)
    cases hlookup : dt.lookup (parentDir d) with
    | none =>
      refine ⟨dt, rfl, fun _ => Iff.rfl, fun k => ?_⟩
      by_cases hk : k = parentDir d
      · rw [hk, get, hlookup]
        exact .refl _
      · rw [helsewhere k hk]
    | some entries =>
      have hget : get dt (parentDir d) = entries := by rw [get, hlookup, Option.getD_some]
      obtain ⟨entries', htake, hperm⟩ := takeOut_spec (hget ▸ hone)
      refine ⟨dt.insert (parentDir d) entries', congrArg (Option.map _) htake, fun k => ?_, fun k => ?_⟩
      · rw [AList.mem_insert]
        refine or_iff_right_of_imp ?_
        rintro rfl
        exact AList.lookup_isSome.mp (by rw [hlookup]; rfl)
      · by_cases hk : k = parentDir d
        · rw [hk, get_insert_self, hget]
          simpa [hnil] using hperm
        · rw [get_insert_ne hk, helsewhere k hk]

theorem removeNames_spec (hlocated : Located dt) (honce : Once dt names) :
    ∃ dt', names.foldlM removeNamed dt = some dt' ∧ Kept (fun e => ∀ d ∈ names, e ≠ .dir d ∨ d = []) dt dt' := by
  induction names generalizing dt with
  | nil => exact ⟨dt, rfl, fun _ => Iff.rfl, fun k => by simp⟩
  | cons d names ih =>
    obtain ⟨dt₁, hfirst, hkept⟩ := removeNamed_spec hlocated (honce d mem_cons_self)
    obtain ⟨dt₂, hrest, hkept'⟩ := ih (hkept.located hlocated) (hkept.once fun d hd => honce d (mem_cons_of_mem _ hd))
    refine ⟨dt₂, by rw [foldlM_cons, hfirst]; exact hrest, fun k => (hkept'.keys k).trans (hkept.keys k), fun k => ?_⟩
    refine (hkept'.entries k).trans (((hkept.entries k).filter _).trans (.of_eq ?_))
    rw [filter_filter]
    exact filter_congr fun e _ => by simp [Bool.and_comm]

end Names

/-! ## Removing what is below the names -/

section Reached

variable {dt : DirTree} {names : List Text} {d k : Text}

/-- The names and all directories that those reached list. -/
inductive Reached (dt : DirTree) (names : List Text) : Text → Prop
  | named {d : Text} (h : d ∈ names) : Reached dt names d
  | listed {d c : Text} (h : Reached dt names d) (hc : .dir c ∈ get dt d) : Reached dt names c

theorem get_erase_ne (h : k ≠ d) : get (dt.erase d) k = get dt k := by rw [get, AList.lookup_erase_ne h, get]

theorem mem_pruneDir_names {st : DirTree × List Text} {c : Text} :
    c ∈ (pruneDir st d).2 ↔ (c ∈ st.2 ∨ .dir c ∈ get st.1 d) ∧ c ≠ d := by
  have hdirs : c ∈ (get st.1 d).filterMap Entry.isDir? ↔ .dir c ∈ get st.1 d := by
    rw [mem_filterMap]
    constructor
    · rintro ⟨e, he, hdir⟩
      cases e with
      | object _ => cases hdir
      | dir remote =>
        cases hdir
        exact he
    · exact fun h => ⟨_, h, rfl⟩
  rw [pruneDir, mem_filter, mem_append, hdirs, decide_eq_true_iff]

/-- Removing a directory does not change what else is reached. -/
theorem reached_pruneDir (st : DirTree × List Text) (hd : d ∈ st.2) (hk : k ≠ d) :
    Reached (pruneDir st d).1 (pruneDir st d).2 k ↔ Reached st.1 st.2 k := by
  constructor
  · intro h
    clear hk
    induction h with
    | named h =>
      rcases (mem_pruneDir_names.mp h).1 with h | h
      · exact .named h
      · exact .listed (.named hd) h
    | @listed x c _ hc ih =>
      refine .listed ih ?_
      by_cases hx : x = d
      · rw [hx, pruneDir, get, AList.lookup_erase] at hc
        cases hc
      · rwa [pruneDir, get_erase_ne hx] at hc
  · intro h
    induction h with
    | named h => exact .named (mem_pruneDir_names.mpr ⟨.inl h, hk⟩)
    | @listed x c _ hc ih =>
      by_cases hx : x = d
      · exact .named (mem_pruneDir_names.mpr ⟨.inr (hx ▸ hc), hk⟩)
      · refine .listed (ih hx) ?_
        rwa [pruneDir, get_erase_ne hx]

theorem countEntries_erase (dt : DirTree) (d : Text) :
    countEntries (dt.erase d) + (get dt d).length = countEntries dt := by
  have hrest : ∀ l : List Text, d ∉ l → (l.map fun k => (get (dt.erase d) k).length) = l.map fun k =>
      (get dt k).length := by
    intro l hl
    refine map_congr_left fun k hk => ?_
    rw [get_erase_ne]
    rintro rfl
    exact hl hk
  have hmem : ∀ k, k ∈ (dt.erase d).keys ↔ k ≠ d ∧ k ∈ dt.keys := by
    intro k
    rw [← AList.mem_keys, AList.mem_erase, AList.mem_keys]
  rw [countEntries, hrest _ fun h => ((hmem d).mp h).1 rfl, countEntries]
  by_cases hd : d ∈ dt.keys
  · have hperm : dt.keys.Perm (d :: (dt.erase d).keys) := by
      refine (perm_ext_iff_of_nodup dt.keys_nodup ?_).mpr fun k => ?_
      · exact nodup_cons.mpr ⟨fun h => ((hmem d).mp h).1 rfl, AList.keys_nodup _⟩
      · rw [mem_cons, hmem]
        by_cases hk : k = d
        · simp [hk, hd]
        · simp [hk]
    rw [(hperm.map _).sum_eq, map_cons, sum_cons, Nat.add_comm]
  · have hperm : (dt.erase d).keys.Perm dt.keys := by
      refine (perm_ext_iff_of_nodup (AList.keys_nodup _) dt.keys_nodup).mpr fun k => ?_
      rw [hmem]
      refine and_iff_right_of_imp ?_
      rintro hk rfl
      exact hd hk
    have hget : get dt d = [] := by
      rw [get, AList.lookup_eq_none.mpr fun h => hd (AList.mem_keys.mp h), Option.getD_none]
    rw [(hperm.map _).sum_eq, hget, length_nil, Nat.add_zero]

theorem length_pruneDir (st : DirTree × List Text) (hd : d ∈ st.2) :
    (pruneDir st d).2.length + countEntries (pruneDir st d).1 < st.2.length + countEntries st.1 := by
  have hcount := countEntries_erase st.1 d
  have hdirs := length_filterMap_le Entry.isDir? (get st.1 d)
  have hlt : (st.2.filter (· ≠ d)).length < st.2.length :=
    length_filter_lt_length_iff_exists.mpr ⟨d, hd, by simp⟩
  have hle := length_filter_le (· ≠ d) ((get st.1 d).filterMap Entry.isDir?)
  simp only [pruneDir, filter_append, length_append]
  omega

/-- The loop ends, and what is left are the directories that are not reached. -/
theorem pruneLoop_spec (next : DirTree × List Text → Nat) : ∀ {fuel : Nat} {dt : DirTree} {names : List Text},
    names.length + countEntries dt ≤ fuel → ∃ dt', pruneLoop next fuel (dt, names) = some dt' ∧
      ∀ k, (k ∈ dt' ↔ k ∈ dt ∧ ¬Reached dt names k) ∧ (k ∈ dt' → get dt' k = get dt k)
  | fuel, dt, [], _ => by
    have hnone : ∀ k, ¬Reached dt [] k := by
      intro k h
      induction h with
      | named h => cases h
      | listed _ _ ih => exact ih
    refine ⟨dt, by rw [pruneLoop], fun k => ⟨?_, fun _ => rfl⟩⟩
    simp [hnone k]
  | 0, dt, d :: names, hfuel => absurd hfuel (by simp)
  | fuel + 1, dt, d :: names, hfuel => by
    rw [pruneLoop]
    generalize hx : (d :: names).getD (next (dt, d :: names)) d = x
    have hmem : x ∈ d :: names := by
      rw [← hx, getD_eq_getElem?_getD]
      cases hget : (d :: names)[next (dt, d :: names)]? with
      | none => exact mem_cons_self
      | some y => exact mem_of_getElem? hget
    have hlt := length_pruneDir (dt, d :: names) hmem
    obtain ⟨dt', hloop, hspec⟩ := pruneLoop_spec next (Nat.le_of_lt_succ (hlt.trans_le hfuel))
    refine ⟨dt', hloop, fun k => ?_⟩
    obtain ⟨hleft, hsame⟩ := hspec k
    rw [show (pruneDir (dt, d :: names) x).1 = dt.erase x from rfl, AList.mem_erase] at hleft
    by_cases hk : k = x
    · have hgone : k ∉ dt' := fun h => (hleft.mp h).1.1 hk
      exact ⟨iff_of_false hgone fun h => h.2 (.named (hk ▸ hmem)), fun h => absurd h hgone⟩
    · have hreached := reached_pruneDir (dt, d :: names) hmem hk
      refine ⟨?_, fun h => (hsame h).trans (get_erase_ne hk)⟩
      rw [hleft, and_iff_right hk]
      exact and_congr_right fun _ => not_congr hreached

end Reached

/-! ## Pruning -/

section Pruned

variable {dt : DirTree} {names : List Text} {k : Text}

/-- One of the names, or below one. -/
def Under (names : List Text) (k : Text) : Prop := ∃ n, Nat.repeat parentDir n k ∈ names

/-- Every directory below one of the names is listed by its parent. -/
def Linked (dt : DirTree) (names : List Text) : Prop :=
  ∀ k ∈ dt, k ∉ names → Under names k → .dir k ∈ get dt (parentDir k)

/-- The names and what is below them are gone, as directories and as entries; all else is still there. -/
structure Pruned (names : List Text) (dt dt' : DirTree) : Prop where
  keys : ∀ k, k ∈ dt' ↔ k ∈ dt ∧ ¬Under names k
  entries : ∀ k ∈ dt', (get dt' k).Perm ((get dt k).filter fun e => ∀ d ∈ names, e ≠ .dir d)

theorem Reached.under (hlocated : Located dt) (h : Reached dt names k) : Under names k := by
  induction h with
  | named h => exact ⟨0, h⟩
  | @listed d c _ hc ih =>
    cases hlocated d _ hc
    obtain ⟨n, hn⟩ := ih
    exact ⟨n + 1, repeat_parentDir_succ c n ▸ hn⟩

/-- Under `Linked`, all that is below the names is reached. -/
theorem reached_of_repeat {dt₁ : DirTree} (hlinked : Linked dt names)
    (hstays : ∀ k d, .dir k ∈ get dt d → k ∉ names → .dir k ∈ get dt₁ d) :
    ∀ {n : Nat} {k : Text}, k ∈ dt → Nat.repeat parentDir n k ∈ names → Reached dt₁ names k
  | 0, _, _, h => .named h
  | n + 1, k, hk, h => by
    by_cases hnamed : k ∈ names
    · exact .named hnamed
    · have hlisted := hlinked k hk hnamed ⟨n + 1, h⟩
      rw [← repeat_parentDir_succ] at h
      exact .listed (reached_of_repeat hlinked hstays (mem_of_mem_get hlisted) h) (hstays _ _ hlisted hnamed)

/-- Without two entries for one of the names, `prune` does what it should just where the directories below the names are
listed by their parents. -/
theorem prune_pruned_iff (calls : List Call) (names : List Text) (next : DirTree × List Text → Nat)
    (honce : Once (build calls) names) :
    (∃ dt', prune next names (build calls) = some dt' ∧ Pruned names (build calls) dt') ↔
      Linked (build calls) names := by
  have hlocated := located_build calls
  generalize build calls = dt at honce hlocated
  obtain ⟨dt₁, hnames, hkept⟩ := removeNames_spec hlocated honce
  obtain ⟨dt', hloop, hspec⟩ := pruneLoop_spec next (le_refl (names.length + countEntries dt₁))
  have hprune : prune next names dt = some dt' := by rw [prune, hnames]; exact hloop
  have hentries : ∀ {k c : Text}, .dir c ∈ get dt₁ k → .dir c ∈ get dt k := fun h =>
    mem_of_mem_filter ((hkept.entries _).mem_iff.mp h)
  constructor
  · rintro ⟨dt'', heq, hpruned⟩ k hk hnamed hunder
    cases hprune.symm.trans heq
    have hgone : k ∉ dt' := fun h => ((hpruned.keys k).mp h).2 hunder
    have hreached : Reached dt₁ names k := by
      by_contra hnot
      exact hgone ((hspec k).1.mpr ⟨(hkept.keys k).mpr hk, hnot⟩)
    cases hreached with
    | named h => exact absurd h hnamed
    | @listed d _ _ hc =>
      cases hlocated d _ (hentries hc)
      exact hentries hc
  · intro hlinked
    have hunder : ∀ k ∈ dt, Reached dt₁ names k ↔ Under names k := by
      refine fun k hk => ⟨fun h => h.under (hkept.located hlocated), fun ⟨n, hn⟩ => ?_⟩
      refine reached_of_repeat hlinked (fun c d hc hnot => ?_) hk hn
      refine (hkept.entries d).mem_iff.mpr (mem_filter.mpr ⟨hc, decide_eq_true fun x hx => .inl ?_⟩)
      rintro ⟨⟩
      exact hnot hx
    have hkeys : ∀ k, k ∈ dt' ↔ k ∈ dt ∧ ¬Under names k := by
      intro k
      rw [(hspec k).1, hkept.keys]
      exact and_congr_right fun hk => not_congr (hunder k hk)
    refine ⟨dt', hprune, hkeys, fun k hk => ?_⟩
    rw [(hspec k).2 hk]
    refine (hkept.entries k).trans (.of_eq (filter_congr fun e he => decide_eq_decide.mpr ?_))
    refine forall₂_congr fun d hd => or_iff_left_of_imp ?_
    -- the root has no entry; its own listing goes with it
    rintro rfl rfl
    have hroot : k = parentDir [] := hlocated k _ he
    exact ((hkeys k).mp hk).2 ⟨0, hroot ▸ hd⟩

/-- The directory of a file is taken out; the root stays. -/
theorem prune_pruned_file :
    let calls := [Call.addEntry (.object (ascii ['a', '/', 'f'])), .addEntry (.object (ascii ['g']))]
    ∃ dt', prune (fun _ => 0) [ascii ['a']] (build calls) = some dt' ∧ Pruned [ascii ['a']] (build calls) dt' := by
  refine (prune_pruned_iff _ _ _ ?_).mpr fun k hk hnamed hunder => ?_
  · intro d hd
    rw [mem_singleton.mp hd]
    decide +kernel
  · have hkeys : ∀ k ∈ (build [.addEntry (.object (ascii ['a', '/', 'f'])), .addEntry (.object (ascii ['g']))]).keys,
        k = ascii ['a'] ∨ k = [] := by decide +kernel
    obtain ⟨n, hn⟩ := hunder
    rcases hkeys k (AList.mem_keys.mp hk) with rfl | rfl
    · exact absurd mem_cons_self hnamed
    · rw [repeat_parentDir_nil n] at hn
      exact absurd hn (by decide)

/-- A directory that was added twice: the second entry is past the end of the slice that the first one left. -/
theorem prune_panics : prune (fun _ => 0) [ascii ['a']]
    (build [.addDir (.dir (ascii ['a'])), .addDir (.dir (ascii ['a']))]) = none := by
  decide +kernel

end Pruned

end ZClone.Walk
