import Mathlib.Algebra.Ring.Int.Defs
import ZClone.Lib.Path

/-!
# Listings of a union (`backend/union/union.go`)

A union asks all its upstreams and merges what they answer. `list`, `listR` and `newObject` are its methods, with the
search policies; the goroutines write to slots of their own, so that only the order of the parts of a recursive listing
depends on the schedule.

- `list_eq_ok_iff`, `listR_eq_none_iff` and `newObject_eq_objectNotFound_iff` say when the methods succeed, and when
  there is no object.
- `union_not_hiding`: exactly when no failing upstream is hidden. `union_hiding` has the failures that are.
-/

namespace ZClone.Union

open List
open Paths (Text)

/-! ## Errors -/

inductive Error where
  | objectNotFound
  | dirNotFound
  | noUpstreamsFound
  | unknownType
  | other (text : Text)
  /-- With the name of an upstream. -/
  | wrapped (name : Text) (error : Error)
  /-- `Errors`. -/
  | errors (errs : List Error)

mutual

/-- `errors.Is(e, fs.ErrorDirNotFound)`. -/
def Error.isDirNotFound : Error → Bool
  | .dirNotFound => true
  | .wrapped _ e => e.isDirNotFound
  | .errors es => anyDirNotFound es
  | _ => false

def anyDirNotFound : List Error → Bool
  | [] => false
  | e :: es => e.isDirNotFound || anyDirNotFound es

end

/-- `e == fs.ErrorObjectNotFound`. -/
def Error.isObjectNotFound : Error → Bool
  | .objectNotFound => true
  | _ => false

/-- `Errors.Map`. -/
def mapErrors (mapping : Option Error → Option Error) (errs : List (Option Error)) : List Error :=
  errs.filterMap mapping

def filterNil (errs : List (Option Error)) : List Error := mapErrors (fun err => err) errs

def err (errs : List (Option Error)) : Option Error :=
  if (filterNil errs).length = 0 then none else some (.errors (filterNil errs))

/-! ## Policies -/

/-- What the policies ask of an upstream. -/
structure Upstream where
  name : Text
  freeSpace : Int
  minFreeSpace : Int
  usedSpace : Int
  numObjects : Int

/-- An object or a directory. -/
structure Item where
  remote : Text
  isDir : Bool
  /-- Since the zero of times. -/
  modTime : Int

structure Entry where
  upstream : Upstream
  item : Item

/-- The ways to search; the policies of other names search by one of them. -/
inductive Policy where
  | epff
  | eplfs
  | eplno
  | eplus
  | epmfs
  | newest
  | eprand

def maxInt64 : Int := 2 ^ 63 - 1

/-- The last entry that was better than all before it. -/
def pick (measure : Entry → Int) (better : Entry → Int → Bool) (start : Int) (entries : List Entry) : Option Entry :=
  (entries.foldl (fun best e => if better e best.1 then (measure e, some e) else best) (start, none)).2

/-- `SearchEntries`, with a random number. -/
def searchEntries (policy : Policy) (random : Nat) (entries : List Entry) : Except Error (Option Entry) :=
  if entries.length = 0 then .error .objectNotFound
  else
    match policy with
    | .epff => .ok entries.head?
    | .eplfs =>
      match pick (·.upstream.freeSpace)
        (fun e best => e.upstream.freeSpace < best && e.upstream.freeSpace > e.upstream.minFreeSpace) maxInt64
          entries with
      | none => .error .noUpstreamsFound
      | some e => .ok (some e)
    | .eplno => .ok (pick (·.upstream.numObjects) (fun e best => best > e.upstream.numObjects) maxInt64 entries)
    | .eplus => .ok (pick (·.upstream.usedSpace) (fun e best => e.upstream.usedSpace < best) maxInt64 entries)
    | .epmfs => .ok (pick (·.upstream.freeSpace) (fun e best => best < e.upstream.freeSpace) 0 entries)
    | .newest =>
      match pick (·.item.modTime) (fun e best => e.item.modTime > best) 0 entries with
      | none => .error .objectNotFound
      | some e => .ok (some e)
    | .eprand => .ok entries[random % entries.length]?

/-! ## The union -/

structure Fs where
  searchPolicy : Policy
  caseInsensitive : Bool
  toLower : Text → Text
  /-- For the entries of a name. -/
  random : Text → Nat

/-- An entry of the union: the one found, and all of its name. -/
structure UnionEntry where
  found : Entry
  entries : List Entry

section Code

variable (f : Fs)

def wrapEntries (random : Nat) (entries : List Entry) : Except Error UnionEntry :=
  match searchEntries f.searchPolicy random entries with
  | .error e => .error e
  | .ok none => .error .unknownType
  | .ok (some e) => .ok ⟨e, entries⟩

/-- The key of a name in the map of entries. -/
def key (remote : Text) : Text := if f.caseInsensitive then f.toLower remote else remote

/-- The keys of the map are gone through in the order given. -/
def mergeDirEntries (order : List Text) (entriesList : List (List Entry)) : Except Error (List UnionEntry) :=
  order.mapM fun path => wrapEntries f (f.random path) (entriesList.flatten.filter fun e => key f e.item.remote = path)

/-- What the errors of all upstreams make. -/
def allFailed (errs : List (Option Error)) : Option Error :=
  let errs := mapErrors (fun e => if e.any Error.isDirNotFound then none else e) errs
  if errs.length = 0 then some .dirNotFound else err (errs.map some)

/-- The slot of an upstream for its error. -/
def slot {α : Type} (r : Upstream × Except Error α) : Option Error :=
  match r.2 with
  | .ok _ => none
  | .error e => some (.wrapped r.1.name e)

/-- The slot of an upstream for its entries. -/
def wrapped (r : Upstream × Except Error (List Item)) : List Entry :=
  match r.2 with
  | .ok items => items.map (⟨r.1, ·⟩)
  | .error _ => []

/-- `List`, from the answers of the upstreams. -/
def list (order : List Text) (answers : List (Upstream × Except Error (List Item))) : Except Error (List UnionEntry) :=
  if (answers.map slot).length = (filterNil (answers.map slot)).length then
    match allFailed (answers.map slot) with
    | none => .ok []
    | some e => .error e
  else mergeDirEntries f order (answers.map wrapped)

/-- `ListR`: the parts of the listings are appended by the schedule. Returns the error. -/
def listR (order : List Text) (answers : List (Upstream × Except Error Unit)) (entriesList : List (List Entry))
    (callback : List UnionEntry → Option Error) : Option Error :=
  if (answers.map slot).length = (filterNil (answers.map slot)).length then allFailed (answers.map slot)
  else
    match mergeDirEntries f order entriesList with
    | .error e => some e
    | .ok entries => callback entries

/-- The slot of an upstream for its error, but if it has no such object. -/
def objectSlot (r : Upstream × Except Error Item) : Option Error :=
  match r.2 with
  | .ok _ => none
  | .error e => if e.isObjectNotFound then none else some (.wrapped r.1.name e)

def objectEntry (r : Upstream × Except Error Item) : Option Entry :=
  match r.2 with
  | .ok o => some ⟨r.1, o⟩
  | .error _ => none

/-- `NewObject`: the object and the error. -/
def newObject (random : Nat) (answers : List (Upstream × Except Error Item)) : Option UnionEntry × Option Error :=
  let entries := answers.filterMap objectEntry
  if entries.length = 0 then (none, some .objectNotFound)
  else
    match wrapEntries f random entries with
    | .error e => (none, some e)
    | .ok e => (some e, err (answers.map objectSlot))

end Code

/-! ## What the methods return -/

theorem length_ne_iff {errs : List (Option Error)} : errs.length ≠ (filterNil errs).length ↔ none ∈ errs := by
  have hle : (filterNil errs).length ≤ errs.length := length_filterMap_le _ _
  have hlt : (filterNil errs).length < errs.length ↔ ∃ x, ∃ _ : x ∈ errs, x = none :=
    length_filterMap_lt_length_iff_exists
  rw [ne_comm, ← hle.lt_iff_ne, hlt]
  simp

/-- If all upstreams fail there is an error. -/
theorem allFailed_ne_none (errs : List (Option Error)) : allFailed errs ≠ none := by
  rw [allFailed]
  generalize mapErrors _ errs = es
  have hes : filterNil (es.map some) = es := by simp [filterNil, mapErrors, filterMap_map]
  by_cases hnil : es.length = 0
  · simp [hnil]
  · simp [hnil, err, hes]

theorem none_mem_slot_iff {α : Type} {answers : List (Upstream × Except Error α)} :
    none ∈ answers.map slot ↔ ∃ r ∈ answers, ∃ x, r.2 = .ok x := by
  rw [mem_map]
  refine exists_congr fun r => and_congr_right fun _ => ?_
  unfold slot
  cases r.2 with
  | ok x => simp
  | error e => simp

/-- The search policy finds an entry for every name. -/
def Searchable (f : Fs) (order : List Text) (entriesList : List (List Entry)) : Prop :=
  ∀ path ∈ order, ∃ e, searchEntries f.searchPolicy (f.random path)
    (entriesList.flatten.filter fun e => key f e.item.remote = path) = .ok (some e)

theorem mapM_ok_iff {α β : Type} {g : α → Except Error β} : ∀ {xs : List α},
    (∃ ys, xs.mapM g = .ok ys) ↔ ∀ x ∈ xs, ∃ y, g x = .ok y
  | [] => by simp [pure, Except.pure]
  | x :: xs => by
    rw [mapM_cons, forall_mem_cons, ← mapM_ok_iff]
    cases g x with
    | error e => simp [bind, Except.bind]
    | ok y => cases xs.mapM g <;> simp [bind, Except.bind, pure, Except.pure]

section Results

variable {f : Fs} {order : List Text} {entriesList : List (List Entry)} {entries : List UnionEntry} {random : Nat}

theorem wrapEntries_eq_ok_iff {entries : List Entry} :
    (∃ u, wrapEntries f random entries = .ok u) ↔ ∃ e, searchEntries f.searchPolicy random entries = .ok (some e) := by
  unfold wrapEntries
  rcases searchEntries f.searchPolicy random entries with e | _ | e <;> simp

theorem mergeDirEntries_eq_ok_iff :
    (∃ entries, mergeDirEntries f order entriesList = .ok entries) ↔ Searchable f order entriesList := by
  rw [mergeDirEntries, mapM_ok_iff]
  exact forall₂_congr fun path _ => wrapEntries_eq_ok_iff

theorem list_eq_ok_iff {answers : List (Upstream × Except Error (List Item))} : list f order answers = .ok entries ↔
    (∃ r ∈ answers, ∃ items, r.2 = .ok items) ∧ mergeDirEntries f order (answers.map wrapped) = .ok entries := by
  rw [← none_mem_slot_iff, ← length_ne_iff, list]
  split_ifs with hall
  · cases hfailed : allFailed (answers.map slot) with
    | none => exact absurd hfailed (allFailed_ne_none _)
    | some e => exact iff_of_false nofun fun h => h.1 hall
  · exact (and_iff_right hall).symm

theorem listR_eq_none_iff {answers : List (Upstream × Except Error Unit)} {callback : List UnionEntry → Option Error} :
    listR f order answers entriesList callback = none ↔ (∃ r ∈ answers, ∃ x, r.2 = .ok x) ∧
      ∃ entries, mergeDirEntries f order entriesList = .ok entries ∧ callback entries = none := by
  rw [← none_mem_slot_iff, ← length_ne_iff, listR]
  split_ifs with hall
  · exact iff_of_false (allFailed_ne_none _) fun h => h.1 hall
  · rw [and_iff_right hall]
    cases mergeDirEntries f order entriesList <;> simp

/-- By induction on the entries: as long as none is better, the start stays. -/
theorem foldl_pick_eq_none_iff {measure : Entry → Int} {better : Entry → Int → Bool} :
    ∀ {entries : List Entry} {best : Int × Option Entry},
      (entries.foldl (fun best e => if better e best.1 then (measure e, some e) else best) best).2 = none ↔
        best.2 = none ∧ ∀ e ∈ entries, better e best.1 = false
  | [], _ => by simp
  | e :: entries, best => by
    rw [foldl_cons, foldl_pick_eq_none_iff, forall_mem_cons]
    cases better e best.1 <;> simp

theorem pick_eq_none_iff (measure : Entry → Int) (better : Entry → Int → Bool) (start : Int) (entries : List Entry) :
    pick measure better start entries = none ↔ ∀ e ∈ entries, better e start = false := by
  rw [pick, foldl_pick_eq_none_iff]
  simp

/-- The search ends with `ErrorObjectNotFound` for no entries, or for none that is newer than the zero of times. -/
theorem searchEntries_eq_objectNotFound_iff {policy : Policy} {entries : List Entry} :
    searchEntries policy random entries = .error .objectNotFound ↔
      entries = [] ∨ policy = .newest ∧ ∀ e ∈ entries, e.item.modTime ≤ 0 := by
  unfold searchEntries
  split_ifs with hnil
  · simp [eq_nil_of_length_eq_zero hnil]
  · rw [length_eq_zero_iff] at hnil
    cases policy with
    | newest =>
      have hpick := pick_eq_none_iff (·.item.modTime) (fun e best => e.item.modTime > best) 0 entries
      simp only [decide_eq_false_iff_not, gt_iff_lt, Int.not_lt] at hpick
      simp only [hnil, false_or, true_and, ← hpick]
      split
      · simp [*]
      · simp [*]
    | eplfs =>
      dsimp only
      split <;> simp [hnil]
    | epff | eplno | eplus | epmfs | eprand => simp [hnil]

theorem newObject_eq_objectNotFound_iff {answers : List (Upstream × Except Error Item)} :
    newObject f random answers = (none, some .objectNotFound) ↔ (∀ r ∈ answers, ∃ e, r.2 = .error e) ∨
      f.searchPolicy = .newest ∧ ∀ r ∈ answers, ∀ o, r.2 = .ok o → o.modTime ≤ 0 := by
  have hnil : answers.filterMap objectEntry = [] ↔ ∀ r ∈ answers, ∃ e, r.2 = .error e := by
    rw [filterMap_eq_nil_iff]
    refine forall₂_congr fun r _ => ?_
    unfold objectEntry
    cases r.2 <;> simp
  have htimes : (∀ e ∈ answers.filterMap objectEntry, e.item.modTime ≤ 0) ↔
      ∀ r ∈ answers, ∀ o, r.2 = .ok o → o.modTime ≤ 0 := by
    rw [forall_mem_filterMap]
    refine forall₂_congr fun r _ => ?_
    unfold objectEntry
    cases r.2 <;> simp
  rw [← hnil, ← htimes, ← @searchEntries_eq_objectNotFound_iff random, newObject]
  split_ifs with hlen
  · simp [eq_nil_of_length_eq_zero hlen, searchEntries]
  · unfold wrapEntries
    rcases searchEntries f.searchPolicy random (answers.filterMap objectEntry) with e | _ | e <;> simp

theorem exists_of_mapM {α β : Type} {g : α → Except Error β} : ∀ {xs : List α} {ys : List β}, xs.mapM g = .ok ys →
    ∀ x ∈ xs, ∃ y ∈ ys, g x = .ok y
  | [], _, _ => nofun
  | x :: xs, ys, h => by
    rw [mapM_cons] at h
    cases hfirst : g x with
    | error e =>
      rw [hfirst] at h
      cases h
    | ok y =>
      cases hrest : xs.mapM g with rw [hfirst, hrest] at h
      | error e =>
        cases h
      | ok ys' =>
        cases h
        refine forall_mem_cons.mpr ⟨⟨y, mem_cons_self, hfirst⟩, fun x' hx' => ?_⟩
        obtain ⟨y', hy', hg⟩ := exists_of_mapM hrest x' hx'
        exact ⟨y', mem_cons_of_mem _ hy', hg⟩

/-- Every entry of every part is in what is merged. -/
theorem mem_mergeDirEntries
    (h : mergeDirEntries f order entriesList = .ok entries)
    (horder : ∀ e ∈ entriesList.flatten, key f e.item.remote ∈ order)
    {e : Entry} (he : e ∈ entriesList.flatten) : ∃ u ∈ entries, e ∈ u.entries := by
  obtain ⟨u, hu, hwrap⟩ := exists_of_mapM h _ (horder e he)
  refine ⟨u, hu, ?_⟩
  rw [wrapEntries] at hwrap
  split at hwrap
  · cases hwrap
  · cases hwrap
  · cases hwrap
    exact mem_filter.mpr ⟨he, by simp⟩

end Results

/-! ## Failing upstreams -/

/-- The upstream has answered, or says that the directory is not there. -/
def Answered {α : Type} (answer : Except Error α) : Prop := ∀ e, answer = .error e → e.isDirNotFound = true

/-- If some upstream has answered, no other fails. -/
def Unmixed {α : Type} (answers : List (Upstream × Except Error α)) : Prop :=
  (∃ r ∈ answers, ∃ x, r.2 = .ok x) → ∀ r ∈ answers, Answered r.2

/-- The upstream says that the object, or its directory, is not there. -/
def NotFound (answer : Except Error Item) : Prop :=
  ∃ e, answer = .error e ∧ (e.isObjectNotFound = true ∨ e.isDirNotFound = true)

/-- **Exactly when no failing upstream is hidden.** In a listing, recursive or not, for whose names the policy finds
entries: if some upstream answers, no other one fails. In a search: if no upstream has the object, none fails otherwise;
and with the policy `newest`, if some have it, one of these is newer than the zero of times. And a listing has all that
the upstreams have. -/
theorem union_not_hiding (f : Fs) (order : List Text) (listed : List (Upstream × Except Error (List Item)))
    (walked : List (Upstream × Except Error Unit)) (entriesList : List (List Entry)) (random : Nat)
    (looked : List (Upstream × Except Error Item)) :
    ((∀ entries, list f order listed = .ok entries → ∀ r ∈ listed, Answered r.2) ↔
      (Searchable f order (listed.map wrapped) → Unmixed listed)) ∧
    ((∀ callback, listR f order walked entriesList callback = none → ∀ r ∈ walked, Answered r.2) ↔
      (Searchable f order entriesList → Unmixed walked)) ∧
    ((newObject f random looked = (none, some .objectNotFound) → ∀ r ∈ looked, NotFound r.2) ↔
      ((∀ r ∈ looked, ∃ e, r.2 = .error e) → ∀ r ∈ looked, NotFound r.2) ∧
      (f.searchPolicy = .newest → (∃ r ∈ looked, ∃ o, r.2 = .ok o) →
        ∃ r ∈ looked, ∃ o, r.2 = .ok o ∧ 0 < o.modTime)) ∧
    ((∀ r ∈ listed, ∀ items, r.2 = .ok items → ∀ i ∈ items, key f i.remote ∈ order) →
      ∀ entries, list f order listed = .ok entries →
        ∀ r ∈ listed, ∀ items, r.2 = .ok items → ∀ i ∈ items, ∃ u ∈ entries, ⟨r.1, i⟩ ∈ u.entries) := by
  refine ⟨⟨fun h hsearch hok => ?_, fun h entries hlist => ?_⟩, ⟨fun h hsearch hok => ?_, fun h callback hlist => ?_⟩,
    ⟨fun h => ⟨fun hnone => ?_, fun hpolicy hsome => ?_⟩, fun h hobject => ?_⟩, fun horder entries hlist => ?_⟩
  · obtain ⟨entries, hmerge⟩ := mergeDirEntries_eq_ok_iff.2 hsearch
    exact h entries (list_eq_ok_iff.2 ⟨hok, hmerge⟩)
  · obtain ⟨hok, hmerge⟩ := list_eq_ok_iff.1 hlist
    exact h (mergeDirEntries_eq_ok_iff.1 ⟨entries, hmerge⟩) hok
  · obtain ⟨entries, hmerge⟩ := mergeDirEntries_eq_ok_iff.2 hsearch
    exact h (fun _ => none) (listR_eq_none_iff.2 ⟨hok, entries, hmerge, rfl⟩)
  · obtain ⟨hok, entries, hmerge, -⟩ := listR_eq_none_iff.1 hlist
    exact h (mergeDirEntries_eq_ok_iff.1 ⟨entries, hmerge⟩) hok
  · exact h (newObject_eq_objectNotFound_iff.2 (.inl hnone))
  · -- otherwise the search ends without the object, which is there
    by_contra hnew
    have htimes : ∀ r ∈ looked, ∀ o, r.2 = .ok o → o.modTime ≤ 0 := fun r hr o ho =>
      Int.not_lt.1 fun hpos => hnew ⟨r, hr, o, ho, hpos⟩
    obtain ⟨r, hr, o, ho⟩ := hsome
    obtain ⟨e, he, -⟩ := h (newObject_eq_objectNotFound_iff.2 (.inr ⟨hpolicy, htimes⟩)) r hr
    rw [ho] at he
    cases he
  · obtain hnone | ⟨hpolicy, htimes⟩ := newObject_eq_objectNotFound_iff.1 hobject
    · exact h.1 hnone
    · refine h.1 fun r hr => ?_
      cases hanswer : r.2 with
      | error e => exact ⟨e, rfl⟩
      | ok o =>
        obtain ⟨r', hr', o', ho', hpos⟩ := h.2 hpolicy ⟨r, hr, o, hanswer⟩
        exact absurd (htimes r' hr' o' ho') (Int.not_le.2 hpos)
  · intro r hr items hitems i hi
    have hflatten : ∀ e ∈ (listed.map wrapped).flatten, key f e.item.remote ∈ order := by
      intro e he
      obtain ⟨part, hpart, he⟩ := mem_flatten.mp he
      obtain ⟨⟨u, answer⟩, hr, rfl⟩ := mem_map.mp hpart
      cases answer with
      | error e => cases he
      | ok items =>
        obtain ⟨i, hi, rfl⟩ := mem_map.mp he
        exact horder _ hr items rfl i hi
    refine mem_mergeDirEntries (list_eq_ok_iff.1 hlist).2 hflatten (mem_flatten.mpr ⟨_, mem_map_of_mem hr, ?_⟩)
    rw [wrapped, hitems]
    exact mem_map_of_mem hi

/-! Two upstreams of which the second one cannot be reached. -/

def near : Upstream := ⟨[110], 0, 0, 0, 0⟩

def far : Upstream := ⟨[102], 0, 0, 0, 0⟩

def file : Item := ⟨[97], false, 1⟩

def firstFound : Fs := ⟨.epff, false, id, fun _ => 0⟩

def unreachable : Error := .other [33]

/-- One upstream has a file, and the other one says that there is no such directory, or object; of two objects the newer
one is found. -/
theorem union_not_hiding_oneFile :
    (∀ entries, list firstFound [[97]] [(near, .ok [file]), (far, .error .dirNotFound)] = .ok entries →
      (∀ r ∈ [(near, Except.ok [file]), (far, .error .dirNotFound)], Answered r.2) ∧
      ∃ u ∈ entries, ⟨near, file⟩ ∈ u.entries) ∧
    (newObject { firstFound with searchPolicy := .newest } 0
        [(near, .ok { file with modTime := 0 }), (far, .ok file)] = (none, some .objectNotFound) →
      ∀ r ∈ [(near, Except.ok { file with modTime := 0 }), (far, .ok file)], NotFound r.2) := by
  have hanswered : ∀ r ∈ [(near, Except.ok [file]), (far, .error .dirNotFound)], Answered r.2 := by
    simp [Answered, Error.isDirNotFound]
  obtain ⟨hlist, -, -, hall⟩ := union_not_hiding firstFound [[97]] [(near, .ok [file]), (far, .error .dirNotFound)] []
    [] 0 []
  obtain ⟨-, -, hobject, -⟩ := union_not_hiding { firstFound with searchPolicy := .newest } [] [] [] [] 0
    [(near, .ok { file with modTime := 0 }), (far, .ok file)]
  refine ⟨fun entries h => ⟨hlist.2 (fun _ _ => hanswered) entries h, ?_⟩, hobject.2 ⟨by simp, fun _ _ => ?_⟩⟩
  · exact hall (by simp [key, firstFound, file]) entries h _ mem_cons_self [file] rfl file mem_cons_self
  · exact ⟨(far, .ok file), by simp, file, rfl, by decide⟩

/-- The upstream that cannot be reached is hidden: by the one that lists a file in a listing, and by the one that does
not have the object in a search. The newest entry of an object from the zero of times is not found either. -/
theorem union_hiding :
    list firstFound [[97]] [(near, .ok [file]), (far, .error unreachable)] = .ok [⟨⟨near, file⟩, [⟨near, file⟩]⟩] ∧
      listR firstFound [[97]] [(near, .ok ()), (far, .error unreachable)] [[⟨near, file⟩]] (fun _ => none) = none ∧
      newObject firstFound 0 [(near, .error .objectNotFound), (far, .error unreachable)] =
        (none, some .objectNotFound) ∧
      newObject { firstFound with searchPolicy := .newest } 0 [(near, .ok { file with modTime := 0 })] =
        (none, some .objectNotFound) ∧
      unreachable.isDirNotFound = false := by
  exact ⟨rfl, rfl, rfl, rfl, rfl⟩

end ZClone.Union
