import Mathlib.Data.List.Lex
import Mathlib.Data.List.Sort
import ZClone.Lib.Path

/-!
# Directory entries and their matching keys (`fs/march`, `fs/list`)

A march compares the source and destination listings of a directory by a key made of the entry's leaf name, its name
transform (source side only), the matching transforms and a letter for its type.

- Names are byte strings, compared as Go compares strings.
- `srcOrDstKey` is the key; `srcOrDstKey_isDirectory` says that entries of one key have one type.
- `Listing` is what a sorted listing delivers: the entries together with the proof that their keys are in order.
-/

namespace ZClone

open List

/-- A Go string: its bytes. -/
abbrev Name := Paths.Text

namespace March

/-- Go compares strings byte by byte. -/
scoped instance byteOrder : LinearOrder UInt8 where
  le_refl := UInt8.le_refl
  le_trans _ _ _ := UInt8.le_trans
  le_antisymm _ _ := UInt8.le_antisymm
  le_total := UInt8.le_total
  lt_iff_le_not_ge _ _ := by rw [UInt8.le_iff_toNat_le, UInt8.le_iff_toNat_le, UInt8.lt_iff_toNat_lt]; omega
  toDecidableLE := inferInstance

end March

open scoped March

/-- The byte of an ASCII character. -/
def byte (c : Char) : UInt8 := .ofNat c.toNat

/-! ## Entries -/

/-- `fs.DirEntry`. The handle tells entries of one name and type apart: a listing may have duplicates. -/
structure Entry where
  remote : Name
  isDirectory : Bool
  handle : Nat
  deriving DecidableEq

/-- `fs.DirEntryType`, in the order of its texts: "directory" is before "object". -/
inductive EntryType where
  | directory
  | object
  deriving DecidableEq

def EntryType.rank : EntryType → Nat
  | .directory => 0
  | .object => 1

def dirEntryType (e : Entry) : EntryType := if e.isDirectory then .directory else .object

/-- The settings of a `March` that its matching reads. -/
structure March where
  /-- `transform.Path` with the name transforms of the context; its second argument is `isDir`. -/
  transformPath : Name → Bool → Name
  transforms : List (Name → Name)
  noTraverse : Bool
  noCheckDest : Bool
  noProcessDstOnly : Bool

namespace March

variable (m : March)

/-- `March.srcOrDstKey`; `none` is the nil entry. -/
def srcOrDstKey (entry : Option Entry) (isSrc : Bool) : Name :=
  match entry with
  | none => []
  | some e =>
    let base := Paths.base e.remote
    let name := if isSrc then m.transformPath base e.isDirectory else base
    let name := m.transforms.foldl (fun name transform => transform name) name
    name ++ [if e.isDirectory then byte 'D' else byte 'F']

def srcKey (entry : Option Entry) : Name := srcOrDstKey m entry true

def dstKey (entry : Option Entry) : Name := srcOrDstKey m entry false

/-- The last byte of a key is the type's letter, so entries of one key have one type, on whichever sides they are. -/
theorem srcOrDstKey_isDirectory {m : March} {e e' : Entry} {isSrc isSrc' : Bool}
    (h : srcOrDstKey m (some e) isSrc = srcOrDstKey m (some e') isSrc') : e.isDirectory = e'.isDirectory := by
  have hlast := (append_inj' h rfl).2
  revert hlast
  cases e.isDirectory <;> cases e'.isDirectory <;> decide

end March

/-- What a sorted listing delivers: entries whose keys are in order, duplicates allowed. -/
structure Listing (key : Option Entry → Name) where
  entries : List Entry
  sorted : entries.Pairwise fun e e' => key (some e) ≤ key (some e')

/-- The stable sort of `list.Sorter` (in memory) and of the fast-list branch of `makeListDir`. -/
def Listing.sort (key : Option Entry → Name) (entries : List Entry) : Listing key where
  entries := entries.mergeSort fun e e' => key (some e) ≤ key (some e')
  sorted := by
    refine (List.pairwise_mergeSort (fun a b c hab hbc => ?_) (fun a b => ?_) entries).imp fun h => of_decide_eq_true h
    · simp only [decide_eq_true_eq] at hab hbc ⊢
      exact hab.trans hbc
    · simpa using le_total (key (some a)) (key (some b))

end ZClone
