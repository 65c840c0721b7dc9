import Mathlib.Algebra.Ring.Int.Defs
import Mathlib.Logic.Function.Basic
import ZClone.Lib.Path
import ZClone.Lib.Quote

/-!
# Listings (`fileList` of `cmd/bisync/listing.go`)

The names of a listing in order, and the record of each. A name that is not found is looked up again as if it were
quoted text.
-/

namespace ZClone.Bisync

open Paths (Text)

/-- `fileInfo`; the time is in nanoseconds. -/
structure FileInfo where
  size : Int
  time : Int
  hash : Text
  id : Text
  flags : Text
  deriving DecidableEq

/-- `fileList`; `hash` is the name of the hash type, if there is one. -/
structure FileList where
  list : List Text
  info : Text → Option FileInfo
  hash : Option Text

def newFileList : FileList := ⟨[], fun _ => none, none⟩

/-- The name read as quoted text; empty if it can not be read. -/
def unquoted (file : Text) : Text := (Quote.unquote (Quote.mark :: file ++ [Quote.mark])).getD []

/-- `time.Time{}`, the start of the year 1. -/
def zeroTime : Int := -62135596800 * 10 ^ 9

namespace FileList

def has (ls : FileList) (file : Text) : Bool :=
  if file = [] then false else (ls.info file).isSome || (ls.info (unquoted file)).isSome

/-- The name under which `get` finds a record. -/
def key (ls : FileList) (file : Text) : Text := if (ls.info file).isSome then file else unquoted file

def get (ls : FileList) (file : Text) : Option FileInfo := ls.info (ls.key file)

def empty (ls : FileList) : Bool := ls.list.isEmpty

section

variable (ls : FileList) (file : Text)

def getSize : Int := ((ls.get file).map (·.size)).getD 0

def getHash : Text := ((ls.get file).map (·.hash)).getD []

def getTime : Int := ((ls.get file).map (·.time)).getD zeroTime

def isDir : Bool := (ls.get file).any (·.flags = Paths.ascii ['d'])

end

def beforeOther (ls other : FileList) (file : Text) : Bool :=
  if ls.getTime file = zeroTime ∨ other.getTime file = zeroTime then false else ls.getTime file < other.getTime file

end FileList

end ZClone.Bisync
