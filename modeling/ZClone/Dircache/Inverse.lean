import Mathlib.Data.List.AList
import ZClone.Lib.Path

/-!
# The directory cache (`lib/dircache/dircache.go`)

Two maps, from paths to directory IDs and back. `Put` writes to both, whatever they held.

- The operations record what they do to the maps (`DirCache.log`).
- `log_inverse_iff`: when the maps are inverse to each other all along, and `FlushDir` forgets what it should.
-/

namespace ZClone.Dircache

open List
open Paths (Text)

section Code

abbrev Map := AList fun _ : Text => Text

structure Maps where
  cache : Map
  invCache : Map

def Maps.put (m : Maps) (path id : Text) : Maps := ⟨m.cache.insert path id, m.invCache.insert id path⟩

/-- `delete` of a path that is known, and of its ID. -/
def Maps.delete (m : Maps) (path : Text) : Maps :=
  match m.cache.lookup path with
  | some id => ⟨m.cache.erase path, m.invCache.erase id⟩
  | none => m

def Maps.flushDir (m : Maps) (dir : Text) : Maps :=
  let m := m.delete dir
  (m.cache.keys.filter fun key => (dir ++ [Paths.slash]).isPrefixOf key).foldl Maps.delete m

/-- What is done to the maps under their lock. -/
inductive Event where
  | put (path id : Text)
  | flush
  | flushDir (dir : Text)

def Maps.apply (m : Maps) : Event → Maps
  | .put path id => m.put path id
  | .flush => ⟨∅, ∅⟩
  | .flushDir dir => m.flushDir dir

def maps (log : List Event) : Maps := log.foldl Maps.apply ⟨∅, ∅⟩

structure DirCache where
  trueRootID : Text
  root : Text
  rootID : Text
  foundRoot : Bool
  log : List Event

def DirCache.put (dc : DirCache) (path id : Text) : DirCache := { dc with log := dc.log ++ [.put path id] }

def DirCache.setRootIDAlias (dc : DirCache) (rootID : Text) : DirCache := { dc with rootID }.put [] rootID

def DirCache.flush (dc : DirCache) : DirCache := { dc with log := dc.log ++ [.flush] }

def DirCache.resetRoot (dc : DirCache) : DirCache :=
  { dc.flush with foundRoot := false, rootID := dc.trueRootID }.put [] dc.trueRootID

def DirCache.flushDir (dc : DirCache) (dir : Text) : DirCache :=
  if dir = [] then dc.resetRoot else { dc with log := dc.log ++ [.flushDir dir] }

def new (root trueRootID : Text) : DirCache := DirCache.resetRoot ⟨trueRootID, root, [], false, [.flush]⟩

def splitPath (path : Text) : Text × Text :=
  ((path.rdropWhile (· ≠ Paths.slash)).dropLast, path.rtakeWhile (· ≠ Paths.slash))

theorem splitPath_length {path : Text} (h : path ≠ []) : (splitPath path).1.length < path.length := by
  have hle := (List.rdropWhile_prefix (· ≠ Paths.slash) path).length_le
  have hpos := length_pos_of_ne_nil h
  rw [splitPath, length_dropLast]
  omega

/-- What the remote does for one directory: the calls of `SetRootIDAlias` from `FindLeaf`, its result (`none` is an
error) and that of `CreateDir`. -/
structure Leaf where
  aliases : List Text
  found : Option (Option Text)
  created : Option Text

/-- `_findDir`, with the answers for the directories one after the other and what is left of them; no ID is an error. -/
def findDir (create : Bool) (dc : DirCache) (leaves : List Leaf) (path : Text) : Option Text × DirCache × List Leaf :=
  if h : path = [] then (some dc.rootID, dc, leaves)
  else
    match (maps dc.log).cache.lookup path with
    | some pathID => (some pathID, dc, leaves)
    | none =>
      have := splitPath_length h
      match findDir create dc leaves (splitPath path).1 with
      | (some _, dc, leaf :: leaves) =>
        let dc := leaf.aliases.foldl DirCache.setRootIDAlias dc
        match (if leaf.found = some none ∧ create then leaf.created else leaf.found.join) with
        | some pathID => (some pathID, dc.put path pathID, leaves)
        | none => (none, dc, leaves)
      | (_, dc, leaves) => (none, dc, leaves)
termination_by path.length

def findRoot (create : Bool) (dc : DirCache) (leaves : List Leaf) : Bool × DirCache × List Leaf :=
  if dc.foundRoot then (true, dc, leaves)
  else
    match findDir create dc leaves dc.root with
    | (some rootID, dc, leaves) => (true, { dc.flush with foundRoot := true, rootID }.put [] rootID, leaves)
    | (none, dc, leaves) => (false, dc, leaves)

inductive Op where
  | put (path id : Text)
  | findDir (path : Text) (create : Bool) (leaves : List Leaf)
  | flushDir (dir : Text)
  | setRootIDAlias (rootID : Text)
  | resetRoot
  | flush

def DirCache.step (dc : DirCache) : Op → DirCache
  | .put path id => dc.put path id
  | .findDir path create leaves =>
    match findRoot create dc leaves with
    | (true, dc, leaves) => (Dircache.findDir create dc leaves path).2.1
    | (false, dc, _) => dc
  | .flushDir dir => dc.flushDir dir
  | .setRootIDAlias rootID => dc.setRootIDAlias rootID
  | .resetRoot => dc.resetRoot
  | .flush => dc.flush

def run (root trueRootID : Text) (ops : List Op) : DirCache := ops.foldl DirCache.step (new root trueRootID)

end Code

variable {m : Maps} {path id : Text}

/-- `GetInv(id) = p` exactly when `Get(p) = id`. -/
def Inverse (m : Maps) : Prop := ∀ p i, m.invCache.lookup i = some p ↔ m.cache.lookup p = some i

/-- Neither the path nor the ID is known by another one. -/
def Fresh (m : Maps) (path id : Text) : Prop :=
  (∀ i, m.cache.lookup path = some i → i = id) ∧ ∀ p, m.invCache.lookup id = some p → p = path

/-- The directory and the paths below it. -/
def Within (dir p : Text) : Prop := p = dir ∨ dir ++ [Paths.slash] <+: p

/-- Neither map mentions the directory or a path below it, and all others are as before. -/
def Forgets (dir : Text) (m m' : Maps) : Prop :=
  ∀ p i, (m'.cache.lookup p = some i ↔ m.cache.lookup p = some i ∧ ¬ Within dir p) ∧
    (m'.invCache.lookup i = some p ↔ m.invCache.lookup i = some p ∧ ¬ Within dir p)

theorem maps_concat (log : List Event) (e : Event) : maps (log ++ [e]) = (maps log).apply e := foldl_append

theorem lookup_insert (f : Map) (k v k' v' : Text) :
    (f.insert k v).lookup k' = some v' ↔ k' = k ∧ v' = v ∨ k' ≠ k ∧ f.lookup k' = some v' := by
  by_cases hk : k' = k
  · subst hk
    simp [eq_comm]
  · simp [hk, AList.lookup_insert_ne hk]

theorem eq_of_insert {f g : Map} {k v v' : Text}
    (h : (g.insert v k).lookup v' = some k → (f.insert k v).lookup k = some v')
    (hg : g.lookup v' = some k) : v' = v := by
  by_contra hne
  have hback := h ((lookup_insert ..).mpr (.inr ⟨hne, hg⟩))
  rw [AList.lookup_insert] at hback
  exact hne (Option.some.inj hback).symm

theorem inverse_put_iff (h : Inverse m) : Inverse (m.put path id) ↔ Fresh m path id := by
  constructor
  · intro h'
    refine ⟨fun i hi => ?_, fun p hp => ?_⟩
    · exact eq_of_insert (fun hi => (h' path i).mp hi) ((h path i).mpr hi)
    · exact eq_of_insert (fun hp => (h' p id).mpr hp) ((h p id).mp hp)
  · rintro ⟨hpath, hid⟩ p i
    rw [Maps.put, lookup_insert, lookup_insert, h p i, and_comm]
    refine or_congr_right ⟨fun ⟨hi, hp⟩ => ⟨?_, hp⟩, fun ⟨hp, hi⟩ => ⟨?_, hi⟩⟩
    · rintro rfl
      exact hi (hpath i hp)
    · rintro rfl
      exact hp (hid p ((h p i).mpr hi))

theorem inverse_delete (h : Inverse m) (path : Text) : Inverse (m.delete path) ∧
    ∀ p i, (m.delete path).cache.lookup p = some i ↔ m.cache.lookup p = some i ∧ p ≠ path := by
  rw [Maps.delete]
  cases hlookup : m.cache.lookup path with
  | none =>
    refine ⟨h, fun p i => (and_iff_left_of_imp ?_).symm⟩
    rintro hi rfl
    rw [hlookup] at hi
    cases hi
  | some id =>
    have herase : ∀ (f : Map) k k' v, (f.erase k).lookup k' = some v ↔ f.lookup k' = some v ∧ k' ≠ k := by
      intro f k k' v
      by_cases hk : k' = k
      · subst hk
        simp
      · simp [hk, AList.lookup_erase_ne hk]
    refine ⟨fun p i => ?_, fun p i => herase _ _ _ _⟩
    rw [herase, herase, h p i]
    refine and_congr_right fun hp => not_congr ⟨?_, ?_⟩
    · rintro rfl
      exact Option.some.inj (((h p i).mpr hp).symm.trans ((h path i).mpr hlookup))
    · rintro rfl
      exact Option.some.inj (hp.symm.trans hlookup)

theorem inverse_foldl_delete (h : Inverse m) (paths : List Text) : Inverse (paths.foldl Maps.delete m) ∧
    ∀ p i, (paths.foldl Maps.delete m).cache.lookup p = some i ↔ m.cache.lookup p = some i ∧ p ∉ paths := by
  induction paths generalizing m with
  | nil => simp [h]
  | cons path paths ih =>
    obtain ⟨hdelete, hlookup⟩ := inverse_delete h path
    obtain ⟨hinverse, hrest⟩ := ih hdelete
    refine ⟨hinverse, fun p i => ?_⟩
    rw [foldl_cons, hrest, hlookup, mem_cons, not_or, and_assoc]

theorem inverse_flushDir (h : Inverse m) (dir : Text) : Inverse (m.flushDir dir) ∧ Forgets dir m (m.flushDir dir) := by
  obtain ⟨hdelete, hlookup⟩ := inverse_delete h dir
  obtain ⟨hinverse, hrest⟩ := inverse_foldl_delete hdelete
    ((m.delete dir).cache.keys.filter fun key => (dir ++ [Paths.slash]).isPrefixOf key)
  have hcache : ∀ p i, (m.flushDir dir).cache.lookup p = some i ↔ m.cache.lookup p = some i ∧ ¬ Within dir p := by
    intro p i
    rw [Maps.flushDir, hrest, hlookup, Within, not_or, and_assoc]
    refine and_congr_right fun hp => and_congr_right fun hne => not_congr ?_
    have hkey : p ∈ (m.delete dir).cache.keys :=
      AList.mem_keys.mp (AList.lookup_isSome.mp (by rw [(hlookup p i).mpr ⟨hp, hne⟩]; rfl))
    rw [mem_filter, and_iff_right hkey, isPrefixOf_iff_prefix]
  refine ⟨hinverse, fun p i => ⟨hcache p i, ?_⟩⟩
  rw [h p i]
  exact (hinverse p i).trans (hcache p i)

/-- For every run and a `FlushDir` after it: the maps are inverse all along and the flush forgets the directory and the
paths below it and nothing else, just if every `Put` was of a path and an ID not known by another one and the directory
is not the root. -/
theorem log_inverse_iff (root trueRootID : Text) (ops : List Op) (dir : Text) :
    ((∀ pre, pre <+: (run root trueRootID ops).log → Inverse (maps pre)) ∧
      Forgets dir (maps (run root trueRootID ops).log) (maps (run root trueRootID (ops ++ [.flushDir dir])).log)) ↔
    (∀ pre path id, pre ++ [.put path id] <+: (run root trueRootID ops).log → Fresh (maps pre) path id) ∧ dir ≠ [] := by
  have hflush : run root trueRootID (ops ++ [.flushDir dir]) = (run root trueRootID ops).flushDir dir := foldl_append
  rw [hflush]
  generalize run root trueRootID ops = dc
  constructor
  · rintro ⟨h, hforgets⟩
    refine ⟨fun pre path id hpre => ?_, ?_⟩
    · have hnext := h _ hpre
      rw [maps_concat] at hnext
      exact (inverse_put_iff (h pre ((prefix_append _ _).trans hpre))).mp hnext
    · rintro rfl
      have hroot : (maps (dc.flushDir []).log).cache.lookup [] = some dc.trueRootID := by
        have hlog : (dc.flushDir []).log = (dc.log ++ [.flush]) ++ [.put [] dc.trueRootID] := rfl
        rw [hlog, maps_concat]
        exact AList.lookup_insert _
      exact (((hforgets [] _).1.mp hroot).2) (.inl rfl)
  · rintro ⟨h, hdir⟩
    have hinverse : ∀ pre, pre <+: dc.log → Inverse (maps pre) := by
      intro pre
      induction pre using reverseRecOn with
      | nil => exact fun _ p i => by simp [maps]
      | append_singleton pre e ih =>
        intro hpre
        have hprev := ih ((prefix_append _ _).trans hpre)
        rw [maps_concat]
        cases e with
        | put path id => exact (inverse_put_iff hprev).mpr (h pre path id hpre)
        | flush => exact fun p i => by simp [Maps.apply]
        | flushDir dir => exact (inverse_flushDir hprev dir).1
    refine ⟨hinverse, ?_⟩
    rw [DirCache.flushDir, if_neg hdir, maps_concat]
    exact (inverse_flushDir (hinverse _ (prefix_refl _)) dir).2

/-- A directory that is put again with a new ID: the old ID still leads to it, even after the directory is flushed. -/
theorem put_again :
    (maps (run [] [] [.put [0x61] [1], .put [0x61] [2], .flushDir [0x61]]).log).cache.lookup [0x61] = none ∧
    (maps (run [] [] [.put [0x61] [1], .put [0x61] [2], .flushDir [0x61]]).log).invCache.lookup [1] = some [0x61] :=
  by decide

end ZClone.Dircache
