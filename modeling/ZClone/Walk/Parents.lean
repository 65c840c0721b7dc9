import ZClone.Walk.DirTree

/-!
# Entries and their parents

- `addEntry` adds an entry and the directories above it. It stops climbing at any entry that has the name of a
  directory, so that an object can hide a missing one.
- `Located` says that every entry is in the listing of its parent; `addEntry` and `addDir` keep it.
- `checkParents` ends with every directory listed by its parent, on the whole way up to the root
  (`checkParents_listed`), for trees and roots of all names.
-/

namespace ZClone.Walk

open Paths (Text dir ascii)

section Code

/-- The loop of `checkParent` without the directories known to be entries. -/
def checkParentByFind (root : Text) : Nat → Text → DirTree → DirTree
  | 0, _, dt => dt
  | fuel + 1, dirPath, dt =>
    if dirPath = root ∨ (find dt dirPath).isSome then dt
    else
      checkParentByFind root fuel (parentDir dirPath)
        (dt.insert (parentDir dirPath) (get dt (parentDir dirPath) ++ [.dir dirPath]))

def addEntry (dt : DirTree) (entry : Entry) : DirTree :=
  let dt := match entry with
    | .dir _ => addDir dt entry
    | .object _ => add dt entry
  checkParentByFind [] ((parentDir entry.remote).length + 2) (parentDir entry.remote) dt

end Code

/-! ## Climbing -/

section Climbing

variable {root d : Text} {dt : DirTree} {rest : List Text} {st : DirTree × List Text}

theorem length_parentDir_lt {p : Text} (hne : p ≠ []) (hroot : p ≠ [Paths.slash]) :
    (parentDir p).length < p.length := by
  by_cases hhere : dir p = Paths.here
  · have hnil : parentDir p = [] := if_pos hhere
    rw [hnil]
    exact List.length_pos_of_ne_nil hne
  · have hdir : parentDir p = dir p := if_neg hhere
    rw [hdir]
    exact (Paths.length_dir hroot).resolve_left hhere

theorem parentDir_eq_or_lt (p : Text) : parentDir p = p ∨ (parentDir p).length < p.length := by
  by_cases hend : p = [] ∨ p = [Paths.slash]
  · rcases hend with rfl | rfl
    · exact .inl (by decide)
    · exact .inl (by decide)
  · obtain ⟨hne, hroot⟩ := not_or.mp hend
    exact .inr (length_parentDir_lt hne hroot)

theorem repeat_parentDir_succ (k : Text) : ∀ n, Nat.repeat parentDir n (parentDir k) = Nat.repeat parentDir (n + 1) k
  | 0 => rfl
  | n + 1 => congrArg parentDir (repeat_parentDir_succ k n)

theorem repeat_parentDir_nil : ∀ n, Nat.repeat parentDir n [] = []
  | 0 => rfl
  | n + 1 => (congrArg parentDir (repeat_parentDir_nil n)).trans (by decide)

theorem checkParentByFind_done (h : d = root ∨ (find dt d).isSome) : ∀ fuel, checkParentByFind root fuel d dt = dt
  | 0 => rfl
  | _ + 1 => if_pos h

theorem checkParentByFind_climb (h : ¬(d = root ∨ (find dt d).isSome)) (fuel : Nat) :
    checkParentByFind root (fuel + 1) d dt =
    checkParentByFind root fuel (parentDir d) (dt.insert (parentDir d) (get dt (parentDir d) ++ [.dir d])) :=
  if_neg h

/-- More iterations than the length of the path make no difference. -/
theorem checkParentByFind_succ : ∀ {fuel : Nat} {d : Text} {dt : DirTree}, d.length + 2 ≤ fuel →
    checkParentByFind root (fuel + 1) d dt = checkParentByFind root fuel d dt
  | 0, _, _, hfuel => absurd hfuel (by omega)
  | fuel + 1, d, dt, hfuel => by
    by_cases hdone : d = root ∨ (find dt d).isSome
    · rw [checkParentByFind_done hdone, checkParentByFind_done hdone]
    · rw [checkParentByFind_climb hdone, checkParentByFind_climb hdone]
      rcases parentDir_eq_or_lt d with hfix | hlt
      · -- the new entry ends the loop
        have hfound : (find (dt.insert (parentDir d) (get dt (parentDir d) ++ [.dir d])) d).isSome = true :=
          find_isSome (e := .dir d) ((mem_get_append _).mpr (.inr ⟨rfl, rfl⟩))
        rw [hfix] at hfound ⊢
        rw [checkParentByFind_done (.inr hfound), checkParentByFind_done (.inr hfound)]
      · exact checkParentByFind_succ (by omega)

/-- The loop of `checkParent` settles a pending directory. -/
theorem settling_checkParent : ∀ {fuel : Nat} {dirPath : Text} {st : DirTree × List Text},
    Settling root (dirPath :: rest) st → dirPath.length + 2 ≤ fuel →
      Settling root rest (checkParent root fuel dirPath st)
  | 0, _, _, _, hfuel => absurd hfuel (by omega)
  | fuel + 1, dirPath, (dt, dirs), h, hfuel => by
    rw [checkParent]
    split_ifs with hdone
    · exact h.done hdone
    · rcases parentDir_eq_or_lt dirPath with hfix | hlt
      · -- a directory that is its own parent is settled by its own entry
        obtain ⟨fuel, rfl⟩ : ∃ n, fuel = n + 1 := ⟨fuel - 1, by omega⟩
        have hclimb := h.climb
        rw [hfix] at hclimb ⊢
        have hlisted : dirPath ∈ dirPath :: dirs := List.mem_cons_self
        rw [checkParent, if_pos (.inr hlisted)]
        exact hclimb.done (.inr hlisted)
      · exact settling_checkParent h.climb (by omega)

end Climbing

/-! ## Located entries -/

section Located

variable {dt : DirTree} {e : Entry}

def Located (dt : DirTree) : Prop := ∀ d e, e ∈ get dt d → d = parentDir e.remote

theorem located_empty : Located ∅ := fun _ _ he => absurd he List.not_mem_nil

theorem Located.insert (h : Located dt) (new : Entry) :
    Located (dt.insert (parentDir new.remote) (get dt (parentDir new.remote) ++ [new])) := by
  intro d e he
  rcases (mem_get_append new).mp he with he | ⟨rfl, rfl⟩
  · exact h d e he
  · rfl

theorem Located.addDir (h : Located dt) (e : Entry) : Located (addDir dt e) := by
  by_cases hne : e.remote = []
  · rwa [Walk.addDir, if_pos hne]
  · intro d e' he'
    rcases ((addDir_spec hne).2 _ _).mp he' with he' | ⟨rfl, rfl⟩
    · exact h d e' he'
    · rfl

theorem Located.checkParentByFind {root : Text} : ∀ {fuel : Nat} {dirPath : Text} {dt : DirTree}, Located dt →
    Located (checkParentByFind root fuel dirPath dt)
  | 0, _, _, h => h
  | fuel + 1, dirPath, dt, h => by
    rw [Walk.checkParentByFind]
    split_ifs
    · exact h
    · exact (h.insert (.dir dirPath)).checkParentByFind

theorem Located.addEntry (h : Located dt) (e : Entry) : Located (addEntry dt e) := by
  cases e with
  | object remote => exact Located.checkParentByFind (h.insert (.object remote))
  | dir remote => exact Located.checkParentByFind (h.addDir (.dir remote))

theorem located_addEntries (entries : List Entry) : Located (entries.foldl addEntry ∅) := by
  suffices ∀ dt, Located dt → Located (entries.foldl addEntry dt) from this ∅ located_empty
  induction entries with
  | nil => exact fun _ h => h
  | cons e entries ih => exact fun dt h => ih _ (h.addEntry e)

end Located

/-! ## Complete trees -/

/-- The range over the map goes through its keys in any order, with or without those that are new. -/
theorem checkParents_settles (root : Text) {dt : DirTree} {order : List Text} (hlocated : Located dt)
    (horder : dt.keys ⊆ order) :
    ∀ k ∈ checkParents root order dt, k ≠ root → .dir k ∈ get (checkParents root order dt) (parentDir k) := by
  have hrun : ∀ {pending : List Text} {st : DirTree × List Text}, Settling root pending st → Settling root []
      (pending.foldl (fun st dirPath => checkParent root (dirPath.length + 2) dirPath st) st) := by
    intro pending
    induction pending with
    | nil => exact fun h => h
    | cons dirPath rest ih => exact fun h => ih (settling_checkParent h le_rfl)
  have hstart : Settling root order (dt, entryDirs dt) :=
    { listed := fun c hc => by
        obtain ⟨d, hd⟩ := mem_entryDirs.mp hc
        cases hlocated d _ hd
        exact hd
      settled := fun k hk => .inr (.inr (horder (AList.mem_keys.mp hk))) }
  intro k hk hroot
  have hend := hrun hstart
  exact hend.listed k (((hend.settled k hk).resolve_left hroot).resolve_right List.not_mem_nil)

/-- However the entries were added, every directory but the root is listed by its parent, which is a directory of the
tree, and so on up to the root. -/
theorem checkParents_listed (entries : List Entry) (root : Text) (order : List Text)
    (horder : (entries.foldl addEntry ∅).keys ⊆ order) :
    let dt := checkParents root order (entries.foldl addEntry ∅)
    ∀ k ∈ dt, ∀ n, (∀ i ≤ n, Nat.repeat parentDir i k ≠ root) →
      .dir (Nat.repeat parentDir n k) ∈ get dt (Nat.repeat parentDir (n + 1) k) ∧
        Nat.repeat parentDir (n + 1) k ∈ dt := by
  intro dt k hk n
  have hlisted := checkParents_settles root (located_addEntries entries) horder
  induction n with
  | zero =>
    intro hroot
    have hentry := hlisted k hk (hroot 0 le_rfl)
    exact ⟨hentry, mem_of_mem_get hentry⟩
  | succ n ih =>
    intro hroot
    have hparent := (ih fun i hi => hroot i (Nat.le_succ_of_le hi)).2
    have hentry := hlisted _ hparent (hroot (n + 1) le_rfl)
    exact ⟨hentry, mem_of_mem_get hentry⟩

/-- The object `a` hides that the directory `a` is missing, until the parents are checked. -/
theorem checkParents_listed_hidden :
    let entries := [Entry.object (ascii ['a']), .object (ascii ['a', '/', 'b'])]
    .dir (ascii ['a']) ∉ get (entries.foldl addEntry ∅) [] ∧
      .dir (ascii ['a']) ∈ get (checkParents [] (entries.foldl addEntry ∅).keys (entries.foldl addEntry ∅)) [] := by
  intro entries
  refine ⟨by decide +kernel, ?_⟩
  have h := checkParents_listed entries [] _ (List.Subset.refl _) (ascii ['a']) (by decide +kernel) 0
  refine (h fun i hi => ?_).1
  cases Nat.le_zero.mp hi
  decide +kernel

end ZClone.Walk
