import ZClone.Lib.Path
import ZClone.Lib.Utf8

/-!
# The restic server in append-only mode

A request names an object by its path, and the server may keep the objects it has met in a cache. In append-only mode a
POST is refused when the object can be found, and a DELETE is refused unless the path looks like that of a lock.

- `withRemote` is the middleware that makes the name of an object from the path of a request.
- `serve` is one request, with the answers of the backend to the calls it makes; the backend is a map from names to the
  number of the write that has stored the object.
- `append_only` says for which runs of requests the objects that are not locks stay; `overwrites_and_deletes` shows the
  two ways around the checks.
-/

namespace ZClone.Restic

open Paths List

/-! ## Paths -/

def data : Text := ascii ['d', 'a', 't', 'a']

def locks : Text := ascii "locks".toList

/-- The name of the directory a path lies in. -/
def parentName (p : Text) : Option Text := (segments p).dropLast.getLast?

/-- `ValidPath` of the package `io/fs`. -/
def validPath (p : Text) : Bool :=
  Utf8.validString p && (p = here || (segments p).all fun e => e ≠ [] && e ≠ here && e ≠ up)

/-- The file name the pattern `(?:^|/)data/([^/]{2,})$` finds: it has no slash, so it is the last segment, and at least
two runes. -/
def matchData (p : Text) : Option Text :=
  match (segments p).getLast? with
  | none => none
  | some fileName => if parentName p = some data ∧ 2 ≤ (Utf8.symbols fileName).length then some fileName else none

inductive Method where
  | get
  | head
  | post
  | delete

structure Request where
  method : Method
  urlPath : Text
  /-- What the router has left to match, empty when it has not been mounted below another one. -/
  routePath : Text
  /-- The part of the path the route matches with its wildcard. -/
  star : Text
  acceptV2 : Bool
  create : Bool
  contentLength : Int

/-- `WithRemote`: the name of the object, `none` when the path is refused. -/
def withRemote (r : Request) : Option Text :=
  let urlpath := trimSlashes (if r.routePath ≠ [] then r.routePath else r.urlPath)
  if urlpath ≠ [] ∧ (urlpath = here ∨ validPath urlpath = false) then none
  else
    match matchData urlpath with
    | none => some urlpath
    | some fileName =>
      some (urlpath.take (urlpath.length - fileName.length) ++ fileName.take 2 ++ Paths.slash :: fileName)

/-! ## The backend -/

inductive Outcome where
  | ok
  | notFound
  | error
  deriving DecidableEq

structure Backend where
  objects : Text → Option Nat
  writes : Nat

/-- How a call that changes the backend ends, and whether it has changed it; both are up to the backend. -/
structure Effect where
  outcome : Outcome
  done : Bool

section

variable (b : Backend) (x : Text)

def Backend.store : Backend :=
  ⟨Function.update b.objects x (some b.writes), b.writes + 1⟩

def Backend.delete : Backend := { b with objects := Function.update b.objects x none }

def Backend.put (e : Effect) : Backend := if e.done then b.store x else b

def Backend.remove (e : Effect) : Backend := if e.done then b.delete x else b

end

/-- What happens to an upload: the attempts to store it, the check afterwards, and the removal of a bad copy. -/
structure Upload where
  puts : List Effect
  verified : Bool
  removal : Effect

/-- The attempts of `Rcat`, until one succeeds. -/
def Backend.putAll (b : Backend) (x : Text) : List Effect → Bool × Backend
  | [] => (false, b)
  | e :: rest => if e.outcome = .ok then (true, b.put x e) else (b.put x e).putAll x rest

/-- `RcatSize`: whether the object is stored as it was sent, and the backend after it. -/
def Backend.rcatSize (b : Backend) (x : Text) (size : Int) (u : Upload) : Bool × Backend :=
  if 0 ≤ size then
    let stored := b.putAll x (u.puts.take 1)
    if stored.1 = false then stored
    else if u.verified then stored
    else (false, stored.2.remove x u.removal)
  else
    -- an upload of unknown length is tried again, and is not removed when it is bad
    let stored := b.putAll x u.puts
    (stored.1 && u.verified, stored.2)

/-! ## The server -/

structure Options where
  appendOnly : Bool
  cacheObjects : Bool

/-- The names the cache holds an object for. -/
structure State where
  backend : Backend
  cached : Text → Bool

structure Answers where
  newObject : Outcome
  upload : Upload
  removal : Effect
  mkdir : Bool
  listed : List Text
  listing : Outcome

variable (opt : Options) {r : Request} {x p q : Text}

def State.find (s : State) (x : Text) : Bool := opt.cacheObjects && s.cached x

def State.add (s : State) (x : Text) : State :=
  if opt.cacheObjects then { s with cached := Function.update s.cached x true } else s

def State.forget (s : State) (x : Text) : State :=
  if opt.cacheObjects then { s with cached := Function.update s.cached x false } else s

/-- `removePrefix`: forgets what lies below a directory. -/
def State.forgetBelow (s : State) (dir : Text) : State :=
  if opt.cacheObjects then
    let start := if dir.getLast? = some Paths.slash then dir else dir ++ [Paths.slash]
    { s with cached := fun x => s.cached x && !(start = [Paths.slash] || start.isPrefixOf x) }
  else s

/-- `newObject`: whether the object can be found, in the cache or else by asking the backend. -/
def newObject (x : Text) (answer : Outcome) (s : State) : Outcome × State :=
  if s.find opt x then (.ok, s)
  else if answer = .ok then (.ok, s.add opt x)
  else (answer, s)

def serveObject (x : Text) (a : Answers) (s : State) : Nat × State :=
  match newObject opt x a.newObject s with
  | (.ok, s) => (200, s)
  | (.notFound, s) => (404, s)
  | (.error, s) => (500, s)

def upload (x : Text) (size : Int) (a : Answers) (s : State) : Nat × State :=
  let stored := s.backend.rcatSize x size a.upload
  let s := { s with backend := stored.2 }
  if stored.1 then (200, s.add opt x) else (500, s)

def postObject (x : Text) (size : Int) (a : Answers) (s : State) : Nat × State :=
  if opt.appendOnly then
    -- any error is taken to mean that the object does not exist yet
    match newObject opt x a.newObject s with
    | (.ok, s) => (403, s)
    | (_, s) => upload opt x size a s
  else upload opt x size a s

def deleteObject (x urlPath : Text) (a : Answers) (s : State) : Nat × State :=
  if opt.appendOnly ∧ parentName urlPath ≠ some locks then (403, s)
  else
    match newObject opt x a.newObject s with
    | (.ok, s) =>
      let s := { s with backend := s.backend.remove x a.removal }
      match a.removal.outcome with
      | .ok => (200, s.forget opt x)
      | .notFound => (404, s)
      | .error => (500, s)
    | (_, s) => (404, s)

def listObjects (x : Text) (acceptV2 : Bool) (a : Answers) (s : State) : Nat × State :=
  if acceptV2 = false then (400, s)
  else
    let s := a.listed.foldl (State.add opt) (s.forgetBelow opt x)
    match a.listing with
    | .error => (500, s)
    | .ok | .notFound => (200, s)

/-- Directories are not objects, so only the status depends on what `Mkdir` answers. -/
def createRepo (create : Bool) (a : Answers) (s : State) : Nat × State :=
  if create = false then (400, s) else if a.mkdir then (200, s) else (500, s)

def isDirectory (star : Text) : Prop := star = [] ∨ star.getLast? = some Paths.slash

instance (star : Text) : Decidable (isDirectory star) := inferInstanceAs (Decidable (_ ∨ _))

/-- One request. -/
def serve (r : Request) (a : Answers) (s : State) : Nat × State :=
  match withRemote r with
  | none => (400, s)
  | some x =>
    match r.method with
    | .get => if isDirectory r.star then listObjects opt x r.acceptV2 a s else serveObject opt x a s
    | .head => serveObject opt x a s
    | .post => if isDirectory r.star then createRepo r.create a s else postObject opt x r.contentLength a s
    | .delete => deleteObject opt x r.urlPath a s

def run (requests : List (Request × Answers)) (s : State) : State :=
  requests.foldl (fun s q => (serve opt q.1 q.2 s).2) s

/-! ## Names of locks -/

theorem parentName_slash_cons (hq : q ≠ []) (h : parentName (Paths.slash :: p) = some q) : parentName p = some q := by
  have hsegments : segments (Paths.slash :: p) = [] :: segments p := by
    have happend := @List.splitOn_append_cons_self _ _ _ Paths.slash [] p
    rwa [splitOn_nil] at happend
  have hne : segments p ≠ [] := splitOn_ne_nil _ _
  unfold parentName at h ⊢
  rw [hsegments, dropLast_cons_of_ne_nil hne] at h
  cases hinit : (segments p).dropLast with
  | nil =>
    rw [hinit] at h
    exact absurd (Option.some.inj h).symm hq
  | cons x xs =>
    rw [hinit, getLast?_cons_cons] at h
    exact h

theorem parentName_dropWhile (hq : q ≠ []) : ∀ {p : Text}, parentName p = some q →
    parentName (p.dropWhile (· = Paths.slash)) = some q := by
  intro p
  induction p with
  | nil => intro h; exact h
  | cons c p ih =>
    intro h
    by_cases hc : c = Paths.slash
    · subst hc
      rw [dropWhile_cons_of_pos (by simp)]
      exact ih (parentName_slash_cons hq h)
    · rw [dropWhile_cons_of_neg (by simpa using hc)]
      exact h

theorem getLast?_dropWhile {c : UInt8} (h : (p.dropWhile (· = Paths.slash)).getLast? = some c) :
    p.getLast? = some c := by
  obtain ⟨l, hl⟩ := dropWhile_suffix (l := p) (fun c => decide (c = Paths.slash))
  rw [← hl, getLast?_append, h]
  rfl

/-- A path that does not end in a slash keeps the name of its directory. -/
theorem parentName_trimSlashes (hq : q ≠ []) (hend : p.getLast? ≠ some Paths.slash) (h : parentName p = some q) :
    parentName (trimSlashes p) = some q := by
  have hkeep : trimSlashes p = p.dropWhile (· = Paths.slash) := by
    apply rdropWhile_eq_self_iff.mpr
    intro hne hlast
    have hslash : (p.dropWhile (· = Paths.slash)).getLast hne = Paths.slash := by simpa using hlast
    apply hend
    apply getLast?_dropWhile
    rw [getLast?_eq_some_getLast hne, hslash]
  rw [hkeep]
  exact parentName_dropWhile hq h

/-- A path that names a lock and does not end in a slash is the path of a lock. -/
theorem parentName_withRemote (hroute : r.routePath = []) (hend : r.urlPath.getLast? ≠ some Paths.slash)
    (h : parentName r.urlPath = some locks) (hx : withRemote r = some x) : parentName x = some locks := by
  have htrim : parentName (trimSlashes r.urlPath) = some locks := parentName_trimSlashes (by decide) hend h
  have hmatch : matchData (trimSlashes r.urlPath) = none := by
    unfold matchData
    rw [htrim]
    split
    · rfl
    · rw [if_neg]
      rintro ⟨hdata, -⟩
      exact absurd (Option.some.inj hdata) (by decide)
  unfold withRemote at hx
  simp only [hroute, ne_eq, not_true_eq_false, if_false, hmatch] at hx
  split_ifs at hx
  cases hx
  exact htrim

/-! ## One request -/

variable {opt}

/-- Everything but `x` is as before. -/
def Backend.OnlyAt (x : Text) (b b' : Backend) : Prop := ∀ y, y ≠ x → b'.objects y = b.objects y

theorem Backend.onlyAt_put (b : Backend) (x : Text) (e : Effect) : OnlyAt x b (b.put x e) := by
  intro y hy
  unfold put
  split_ifs
  · exact Function.update_of_ne hy ..
  · rfl

theorem Backend.onlyAt_remove (b : Backend) (x : Text) (e : Effect) : OnlyAt x b (b.remove x e) := by
  intro y hy
  unfold remove
  split_ifs
  · exact Function.update_of_ne hy ..
  · rfl

theorem Backend.OnlyAt.trans {a b c : Backend} (h : OnlyAt x a b) (h' : OnlyAt x b c) : OnlyAt x a c :=
  fun y hy => (h' y hy).trans (h y hy)

theorem Backend.onlyAt_putAll (x : Text) : ∀ (puts : List Effect) (b : Backend), OnlyAt x b (b.putAll x puts).2 := by
  intro puts
  induction puts with
  | nil => intro b y _; rfl
  | cons e rest ih =>
    intro b
    unfold putAll
    split_ifs
    · exact b.onlyAt_put x e
    · exact (b.onlyAt_put x e).trans (ih _)

/-- An upload touches the object it is for and no other. -/
theorem Backend.onlyAt_rcatSize (b : Backend) (x : Text) (size : Int) (u : Upload) :
    OnlyAt x b (b.rcatSize x size u).2 := by
  unfold rcatSize
  dsimp only
  split_ifs
  · exact b.onlyAt_putAll x _
  · exact b.onlyAt_putAll x _
  · exact (b.onlyAt_putAll x _).trans (onlyAt_remove _ x _)
  · exact b.onlyAt_putAll x _

@[simp] theorem backend_add (s : State) (x : Text) : (s.add opt x).backend = s.backend := by
  unfold State.add
  split_ifs <;> rfl

@[simp] theorem backend_forget (s : State) (x : Text) : (s.forget opt x).backend = s.backend := by
  unfold State.forget
  split_ifs <;> rfl

@[simp] theorem backend_forgetBelow (s : State) (x : Text) : (s.forgetBelow opt x).backend = s.backend := by
  unfold State.forgetBelow
  split_ifs <;> rfl

theorem backend_addAll (xs : List Text) (s : State) : (xs.foldl (State.add opt) s).backend = s.backend := by
  induction xs generalizing s with
  | nil => rfl
  | cons x xs ih => exact (ih _).trans (backend_add s x)

@[simp] theorem backend_newObject (x : Text) (answer : Outcome) (s : State) :
    (newObject opt x answer s).2.backend = s.backend := by
  unfold newObject
  split_ifs
  · rfl
  · exact backend_add s x
  · rfl

theorem backend_serveObject (x : Text) (a : Answers) (s : State) : (serveObject opt x a s).2.backend = s.backend := by
  have hnew := @backend_newObject opt x a.newObject s
  unfold serveObject
  split <;> rename_i heq <;> rwa [heq] at hnew

theorem backend_listObjects (x : Text) (accept : Bool) (a : Answers) (s : State) :
    (listObjects opt x accept a s).2.backend = s.backend := by
  unfold listObjects
  split_ifs
  · rfl
  · dsimp only
    split <;> exact (backend_addAll _ _).trans (backend_forgetBelow s x)

theorem onlyAt_upload (x : Text) (size : Int) (a : Answers) (s : State) :
    s.backend.OnlyAt x (upload opt x size a s).2.backend := by
  unfold upload
  dsimp only
  split_ifs
  · rw [backend_add]
    exact s.backend.onlyAt_rcatSize x size a.upload
  · exact s.backend.onlyAt_rcatSize x size a.upload

/-- A POST changes nothing but the object it is for, and not that one when it can be found. -/
theorem postObject_spec (happend : opt.appendOnly = true) (x : Text) (size : Int) (a : Answers) (s : State) :
    s.backend.OnlyAt x (postObject opt x size a s).2.backend ∧
      (s.find opt x = true ∨ a.newObject = .ok → (postObject opt x size a s).2.backend = s.backend) := by
  have hnew := @backend_newObject opt x a.newObject s
  unfold postObject
  rw [if_pos happend]
  split
  · rename_i heq
    rw [heq] at hnew
    refine ⟨?_, fun _ => hnew⟩
    rw [hnew]
    intro y _
    rfl
  · rename_i o s' hne heq
    rw [heq] at hnew
    refine ⟨hnew ▸ onlyAt_upload x size a s', ?_⟩
    intro hfind
    exfalso
    have hfound : (newObject opt x a.newObject s).1 = .ok := by
      unfold newObject
      rcases hfind with hcached | hok
      · rw [if_pos hcached]
      · rw [if_pos hok]
        split_ifs <;> rfl
    rw [heq] at hfound
    exact hne hfound

/-- A DELETE changes nothing but the object it is for, and nothing at all when the path is not that of a lock. -/
theorem deleteObject_spec (happend : opt.appendOnly = true) (x urlPath : Text) (a : Answers) (s : State) :
    s.backend.OnlyAt x (deleteObject opt x urlPath a s).2.backend ∧
      (parentName urlPath ≠ some locks → (deleteObject opt x urlPath a s).2.backend = s.backend) := by
  have hnew := @backend_newObject opt x a.newObject s
  unfold deleteObject
  by_cases hlocks : parentName urlPath ≠ some locks
  · rw [if_pos ⟨happend, hlocks⟩]
    exact ⟨fun _ _ => rfl, fun _ => rfl⟩
  · rw [if_neg fun h => hlocks h.2]
    refine ⟨?_, fun h => absurd h hlocks⟩
    split
    · rename_i s' heq
      rw [heq] at hnew
      have hremove := s.backend.onlyAt_remove x a.removal
      rw [← hnew] at hremove ⊢
      split
      · rw [backend_forget]
        exact hremove
      · exact hremove
      · exact hremove
    · rename_i heq
      rw [heq] at hnew
      intro y _
      rw [← hnew]

/-! ## Runs -/

/-- The request does not get around the checks: an object that is there when a POST comes for it is in the cache or the
backend finds it, and a DELETE is not for a path that ends in a slash. -/
structure Careful (opt : Options) (s : State) (r : Request) (a : Answers) : Prop where
  post : r.method = .post → ∀ x, withRemote r = some x → s.backend.objects x ≠ none →
    s.find opt x = true ∨ a.newObject = .ok
  delete : r.method = .delete → r.routePath = [] ∧ r.urlPath.getLast? ≠ some Paths.slash

theorem serve_keeps (happend : opt.appendOnly = true) {s : State} {a : Answers} (h : Careful opt s r a)
    {y : Text} {v : Nat} (hy : s.backend.objects y = some v) (hname : parentName y ≠ some locks) :
    (serve opt r a s).2.backend.objects y = some v := by
  unfold serve
  cases hx : withRemote r with
  | none => exact hy
  | some x =>
    cases hmethod : r.method with
    | get =>
      dsimp only
      split_ifs
      · rw [backend_listObjects]
        exact hy
      · rw [backend_serveObject]
        exact hy
    | head =>
      rw [backend_serveObject]
      exact hy
    | post =>
      dsimp only
      split_ifs
      · unfold createRepo
        split_ifs <;> exact hy
      · obtain ⟨honly, hsame⟩ := postObject_spec happend x r.contentLength a s
        by_cases hxy : y = x
        · rw [hsame (h.post hmethod x hx (by rw [← hxy, hy]; nofun))]
          exact hy
        · rw [honly y hxy]
          exact hy
    | delete =>
      obtain ⟨honly, hsame⟩ := deleteObject_spec happend x r.urlPath a s
      obtain ⟨hroute, hend⟩ := h.delete hmethod
      by_cases hlocks : parentName r.urlPath = some locks
      · have hxlocks := parentName_withRemote hroute hend hlocks hx
        rw [honly y fun hxy => hname (hxy ▸ hxlocks)]
        exact hy
      · rw [hsame hlocks]
        exact hy

/-- Every request of the run is careful when its turn comes. -/
def CarefulRun (opt : Options) : List (Request × Answers) → State → Prop
  | [], _ => True
  | q :: rest, s => Careful opt s q.1 q.2 ∧ CarefulRun opt rest (serve opt q.1 q.2 s).2

/-- An object that is not a lock is neither removed nor overwritten. -/
theorem append_only (happend : opt.appendOnly = true) {requests : List (Request × Answers)} {s : State}
    (h : CarefulRun opt requests s) {y : Text} {v : Nat} (hy : s.backend.objects y = some v)
    (hname : parentName y ≠ some locks) : (run opt requests s).backend.objects y = some v := by
  induction requests generalizing s with
  | nil => exact hy
  | cons q rest ih => exact ih h.2 (serve_keeps happend h.1 hy hname)

/-- Storing an upload that is whole, or removing an object, without an error. -/
def smooth : Answers where
  newObject := .ok
  upload := ⟨[⟨.ok, true⟩], true, ⟨.ok, true⟩⟩
  removal := ⟨.ok, true⟩
  mkdir := true
  listed := []
  listing := .ok

/-- Objects named `a/locks` and `a/b`. -/
def twoObjects : State where
  backend := ⟨fun x => if x = ascii "a/locks".toList ∨ x = ascii ['a', '/', 'b'] then some 0
    else none, 1⟩
  cached _ := false

theorem append_only_post : (run ⟨true, true⟩
    [(⟨.post, ascii ['/', 'a', '/', 'b'], [], ascii ['a', '/', 'b'], false, false, 3⟩, smooth)]
      twoObjects).backend.objects
      (ascii ['a', '/', 'b']) = some 0 := by
  apply append_only rfl
  · refine ⟨⟨fun _ _ _ _ => .inr rfl, nofun⟩, trivial⟩
  · rfl
  · decide

/-- A POST while the backend fails to look the object up overwrites it, and a DELETE with a slash behind the name
removes an object that is itself named `locks`. -/
theorem overwrites_and_deletes :
    (run ⟨true, false⟩ [(⟨.post, ascii ['/', 'a', '/', 'b'], [], ascii ['a', '/', 'b'], false, false, 3⟩,
      { smooth with newObject := .error })] twoObjects).backend.objects (ascii ['a', '/', 'b']) = some 1 ∧
    (run ⟨true, false⟩ [(⟨.delete, ascii "/a/locks/".toList, [],
      ascii "a/locks/".toList, false, false, 0⟩, smooth)] twoObjects).backend.objects
        (ascii "a/locks".toList) = none ∧
    parentName (ascii ['a', '/', 'b']) ≠ some locks ∧
    parentName (ascii "a/locks".toList) ≠ some locks := by
  refine ⟨rfl, rfl, ?_, ?_⟩ <;> decide

end ZClone.Restic
