import Mathlib.Data.Int.Order.Basic
import Mathlib.Data.List.AList
import Mathlib.Logic.Function.Basic
import ZClone.Lib.Int64
import ZClone.Lib.Path

/-!
# The write-back queue (`vfs/vfscache/writeback/writeback.go`)

Items wait on a heap until they expire; a timer runs `processItems`, which starts their uploads.

- What one goroutine does between taking the lock and giving it up is one step (`next`). `_cancelUpload` gives the lock
  up in the middle of a call: the call is then one of the `waiting` ones, and `resume` is the rest of it.
- Items are referred to by pointer, as calls that have waited may find the lookup map changed.
- `container/heap` keeps the least item at the front. The heap is the list of the items on it, and `peekItem` their
  least.
- The clock stands still within a step. Times are in nanoseconds since the zero time.
-/

namespace ZClone.WriteBack

open Paths (Text)

abbrev Handle := Nat
abbrev Ptr := Nat

/-- A `time.Duration`. -/
def IsDuration (d : Int) : Prop := -2 ^ 63 ≤ d ∧ d < 2 ^ 63

structure Options where
  writeBack : Int
  transfers : Int
  isDuration : IsDuration writeBack

/-- A `writeBackItem`. Each upload has a channel `done` of its own; they are numbered. -/
structure Item where
  name : Text := []
  id : Handle := 0
  expiry : Int
  uploading : Bool := false
  onHeap : Bool := false
  delay : Int := 0
  done : Nat := 0
  closed : List Nat := []

/-- The clock and the timer. `expiry` is what the timer was set for, or zero; `firing` counts the calls of
`processItems` that timers have started and that wait for the lock. -/
structure Clock where
  now : Int
  expiry : Int := 0
  timer : Option Int := none
  firing : Nat := 0
  deriving DecidableEq

/-- A call that waits in `_cancelUpload`. -/
inductive Call where
  | add (x : Ptr)
  | remove (x : Ptr)
  | rename (id : Handle) (x : Ptr) (name : Text)
  /-- `Rename` in the middle of its loop, with the handles still to come. -/
  | renameRemove (id : Handle) (x : Ptr) (name : Text) (rest : List Handle) (y : Ptr)
  deriving DecidableEq

/-- The item whose upload is cancelled. -/
def Call.target : Call → Ptr
  | .add x | .remove x | .rename _ x _ | .renameRemove _ _ _ _ x => x

structure State where
  clock : Clock
  id : Handle := 0
  heap : List Ptr := []
  lookup : AList fun _ : Handle => Ptr := ∅
  item : Ptr → Item
  /-- The next pointer. -/
  fresh : Ptr := 0
  uploads : Int := 0
  /-- The goroutines that run `upload`. -/
  running : List Ptr := []
  /-- The calls in `_cancelUpload`, with the number of the channel when they gave up the lock. -/
  waiting : List (Call × Nat) := []

def new (now : Int) : State := { clock := { now }, item := fun _ => { expiry := now } }

inductive Outcome where
  | succeeded
  | failed
  | canceled
  deriving DecidableEq

inductive Action where
  | tick (d : Nat)
  | fire
  | processItems
  | setID
  | add (id : Handle) (name : Text) (modified : Bool)
  | remove (id : Handle)
  /-- The order is that of the loop over the lookup map. -/
  | rename (id : Handle) (name : Text) (order : List Handle)
  | setExpiry (id : Handle) (expiry relative : Int)
  | finish (x : Ptr) (outcome : Outcome)
  | resume (call : Call × Nat) (order : List Handle)
  deriving DecidableEq

/-! ## The timer -/

namespace Clock

def stop (c : Clock) : Clock := if c.expiry = 0 then c else { c with expiry := 0, timer := none }

/-- With the expiry of the item at the front. -/
def reset (c : Clock) : Option Int → Clock
  | none => c.stop
  | some e => if c.expiry = e then c else { c with expiry := e, timer := some (c.now + max (e - c.now) 0) }

end Clock

/-! ## The queue -/

section Heap

variable (item : Ptr → Item)

def less (x y : Ptr) : Bool :=
  if (item x).expiry = (item y).expiry then (item x).id < (item y).id else (item x).expiry < (item y).expiry

def least : List Ptr → Option Ptr
  | [] => none
  | x :: heap => some (((least heap).filter fun y => less item y x).getD x)

end Heap

namespace State

section

variable (s : State)

def modify (x : Ptr) (f : Item → Item) : State :=
  { s with item := Function.update s.item x (f (s.item x)) }

def peekItem : Option Ptr := least s.item s.heap

def stopTimer : State := { s with clock := s.clock.stop }

def resetTimer : State := { s with clock := s.clock.reset (s.peekItem.map fun x => (s.item x).expiry) }

def pushItem (x : Ptr) : State :=
  if (s.item x).onHeap then s else { s with heap := x :: s.heap }.modify x fun i => { i with onHeap := true }

def removeItem (x : Ptr) : State :=
  if (s.item x).onHeap then { s with heap := s.heap.erase x }.modify x fun i => { i with onHeap := false } else s

/-- `_update`. For an item that is not on the heap, `heap.Fix` has nothing to do. -/
def update (x : Ptr) (expiry : Int) : State := s.modify x fun i => { i with expiry }

/-- A firing has got the lock. -/
def useFiring : State := { s with clock := { s.clock with firing := s.clock.firing - 1 } }

def delItem (x : Ptr) : State := { s with lookup := s.lookup.erase (s.item x).id }

end

end State

section Code

variable (o : Options)

def newExpiry (s : State) : Int := if 0 < o.writeBack then s.clock.now + o.writeBack else s.clock.now

def newItem (s : State) (id : Handle) (name : Text) : State :=
  let last := if id = 0 then s.id + 1 else s.id
  let id := if id = 0 then s.id + 1 else id
  let item : Item := { name, id, expiry := newExpiry o s, delay := o.writeBack }
  { s with
    id := last
    item := Function.update s.item s.fresh item
    fresh := s.fresh + 1
    lookup := s.lookup.insert id s.fresh }.pushItem s.fresh

/-- The first half of `_cancelUpload`. -/
def wait (s : State) (call : Call) : State := { s with waiting := (call, (s.item call.target).done) :: s.waiting }

def add (s : State) (id : Handle) (name : Text) (modified : Bool) : State :=
  match s.lookup.lookup id with
  | none => (newItem o s id name).resetTimer
  | some x =>
    if (s.item x).uploading && modified then wait s (.add x) else (s.update x (newExpiry o s)).resetTimer

def setExpiry (s : State) (id : Handle) (expiry relative : Int) : State :=
  match s.lookup.lookup id with
  | none => s
  | some x =>
    let expiry := if expiry = 0 then (s.item x).expiry else expiry
    (s.update x (expiry + relative)).resetTimer

def maxUploadDelay : Int := 5 * 60 * 1000000000

def retryDelay (outcome : Outcome) (delay : Int) : Int :=
  if outcome = .canceled then o.writeBack else min (int64 (delay * 2)) maxUploadDelay

section

variable (s : State) (x : Ptr)

/-- The rest of `_remove` for an item that is not, or no longer, uploaded. -/
def removeFound : State := ((s.removeItem x).delItem x).resetTimer

/-- The item goes back on the queue for another try. -/
def requeue (outcome : Outcome) : State :=
  let delay := retryDelay o outcome (s.item x).delay
  ((s.modify x fun i => { i with delay }).pushItem x).update x (s.clock.now + delay)

/-- The upload is over, whatever its outcome. -/
def ended : State :=
  { s with running := s.running.erase x, uploads := s.uploads - 1 }.modify x fun i => { i with uploading := false }

def closeDone : State := s.modify x fun i => { i with closed := i.done :: i.closed }

/-- The end of `upload`. -/
def finished (outcome : Outcome) : State :=
  let s := ended s x
  closeDone (if outcome = .succeeded then s.delItem x else requeue o s x outcome).resetTimer x

/-- To close a closed channel is a panic. -/
def finish (outcome : Outcome) : Option State :=
  if x ∉ s.running ∨ (s.item x).done ∈ (s.item x).closed then none else some (finished o s x outcome)

def start : State :=
  { s with heap := s.heap.erase x, uploads := s.uploads + 1, running := x :: s.running }.modify x fun i =>
    { i with onHeap := false, uploading := true, done := i.done + 1 }

end

def remove (s : State) (id : Handle) : State :=
  match s.lookup.lookup id with
  | none => s.resetTimer
  | some x => if (s.item x).uploading then wait s (.remove x) else removeFound s x

/-- The rest of `Rename` once its own item is not uploaded. -/
def renameLoop (id : Handle) (x : Ptr) (name : Text) : List Handle → State → State
  | [], s => ((s.modify x fun i => { i with name }).update x (newExpiry o s)).resetTimer
  | existing :: rest, s =>
    match s.lookup.lookup existing with
    | none => renameLoop id x name rest s
    | some y =>
      if existing ≠ id ∧ (s.item y).name = name then
        if (s.item y).uploading then wait s (.renameRemove id x name rest y)
        else renameLoop id x name rest (removeFound s y)
      else renameLoop id x name rest s

def rename (s : State) (id : Handle) (name : Text) (order : List Handle) : Option State :=
  match s.lookup.lookup id with
  | none => some s
  | some x =>
    if (s.item x).uploading then some (wait s (.rename id x name))
    else if s.lookup.keys ⊆ order ∧ order.Nodup then some (renameLoop o id x name order s)
    else none

/-- With whether the timer is to be reset. -/
def processLoop : Nat → State → State × Bool
  | 0, s => (s, true)
  | fuel + 1, s =>
    match s.peekItem with
    | none => (s, true)
    | some x =>
      if o.transfers ≤ s.uploads then (s, false)
      else if s.clock.now < (s.item x).expiry then (s, true)
      else processLoop fuel (start s x)

def processItems (s : State) : State :=
  let r := processLoop o s.heap.length s
  if r.2 then r.1.resetTimer else r.1.stopTimer

/-- The rest of a call after `_cancelUpload`. -/
def resumed (s : State) (order : List Handle) : Call → State
  | .add x => (s.update x (newExpiry o s)).resetTimer
  | .remove x => removeFound s x
  | .rename id x name => renameLoop o id x name order s
  | .renameRemove id x name rest y => renameLoop o id x name rest (removeFound s y)

/-- A call goes on once a channel of its item is closed that it may have read after it gave up the lock. -/
def resume (s : State) (call : Call × Nat) (order : List Handle) : Option State :=
  if call ∈ s.waiting ∧ (∃ n ∈ (s.item call.1.target).closed, call.2 ≤ n) ∧ s.lookup.keys ⊆ order ∧ order.Nodup then
    some (resumed o ({ s with waiting := s.waiting.erase call }.pushItem call.1.target) order call.1)
  else none

def next (s : State) : Action → Option State
  | .tick d => some { s with clock := { s.clock with now := s.clock.now + d } }
  | .fire =>
    s.clock.timer.bind fun due =>
      if due ≤ s.clock.now then some { s with clock := { s.clock with timer := none, firing := s.clock.firing + 1 } }
        else none
  | .processItems =>
    if s.clock.firing = 0 then none else some (processItems o s.useFiring)
  | .setID => some { s with id := s.id + 1 }
  | .add id name modified => some (add o s id name modified)
  | .remove id => some (remove s id)
  | .rename id name order => rename o s id name order
  | .setExpiry id expiry relative => some (setExpiry s id expiry relative)
  | .finish x outcome => finish o s x outcome
  | .resume call order => resume o s call order

end Code

/-! ## What a step does -/

def Action.isCall : Action → Bool
  | .add .. | .remove .. | .rename .. | .setExpiry .. => true
  | _ => false

inductive Step (o : Options) (s : State) : Action → State → Prop
  | tick (d : Nat) : Step o s (.tick d) { s with clock := { s.clock with now := s.clock.now + d } }
  | fire {due : Int} (htimer : s.clock.timer = some due) (hdue : due ≤ s.clock.now) :
    Step o s .fire { s with clock := { s.clock with timer := none, firing := s.clock.firing + 1 } }
  | process : Step o s .processItems (processItems o s.useFiring)
  | setID : Step o s .setID { s with id := s.id + 1 }
  | idle {a : Action} (ha : a.isCall = true) : Step o s a s
  | reset (id : Handle) : Step o s (.remove id) s.resetTimer
  | wait {a : Action} (ha : a.isCall = true) (call : Call) : Step o s a (wait s call)
  | add {id : Handle} (name : Text) (modified : Bool) (hnone : s.lookup.lookup id = none) :
    Step o s (.add id name modified) (newItem o s id name).resetTimer
  | kick (id : Handle) (name : Text) (modified : Bool) (x : Ptr) :
    Step o s (.add id name modified) (s.update x (newExpiry o s)).resetTimer
  | remove {id : Handle} {x : Ptr} (hfound : s.lookup.lookup id = some x) (hidle : (s.item x).uploading = false) :
    Step o s (.remove id) (removeFound s x)
  | rename (id : Handle) (name : Text) (order : List Handle) (x : Ptr) :
    Step o s (.rename id name order) (renameLoop o id x name order s)
  | setExpiry {id : Handle} {x : Ptr} (expiry relative : Int) (hfound : s.lookup.lookup id = some x) :
    Step o s (.setExpiry id expiry relative)
      (s.update x ((if expiry = 0 then (s.item x).expiry else expiry) + relative)).resetTimer
  | finish {x : Ptr} (outcome : Outcome) (hx : x ∈ s.running) : Step o s (.finish x outcome) (finished o s x outcome)
  | resume (call : Call × Nat) (order : List Handle) :
    Step o s (.resume call order)
      (resumed o ({ s with waiting := s.waiting.erase call }.pushItem call.1.target) order call.1)

variable {o : Options} {x : Ptr} {s s' : State}

theorem step_of_next {a : Action} (h : next o s a = some s') : Step o s a s' := by
  cases a with
  | tick d =>
    cases h
    exact .tick d
  | fire =>
    obtain ⟨due, htimer, hdue⟩ := Option.bind_eq_some_iff.mp h
    split_ifs at hdue with hle
    cases hdue
    exact .fire htimer hle
  | processItems =>
    unfold next at h
    split_ifs at h
    cases h
    exact .process
  | setID =>
    cases h
    exact .setID
  | add id name modified =>
    cases h
    unfold add
    split
    · exact .add name modified ‹_›
    · split_ifs
      · exact .wait rfl _
      · exact .kick ..
  | remove id =>
    cases h
    unfold remove
    split
    · exact .reset id
    · split_ifs with hup
      · exact .wait rfl _
      · exact .remove ‹_› (eq_false_of_ne_true hup)
  | rename id name order =>
    unfold next rename at h
    dsimp only at h
    split at h
    · cases h
      exact .idle rfl
    · split_ifs at h
      · cases h
        exact .wait rfl _
      · cases h
        exact .rename ..
  | setExpiry id expiry relative =>
    cases h
    unfold setExpiry
    split
    · exact .idle rfl
    · exact .setExpiry expiry relative ‹_›
  | finish x outcome =>
    unfold next finish at h
    dsimp only at h
    split_ifs at h with hguard
    cases h
    exact .finish outcome (not_not.mp fun hx => hguard (.inl hx))
  | resume call order =>
    unfold next resume at h
    dsimp only at h
    split_ifs at h
    cases h
    exact .resume call order

theorem Step.of_process (h : Step o s .processItems s') : s' = processItems o s.useFiring := by
  cases h with
  | process => rfl
  | idle ha => cases ha
  | wait ha => cases ha

theorem Step.of_finish {outcome : Outcome} (h : Step o s (.finish x outcome) s') :
    x ∈ s.running ∧ s' = finished o s x outcome := by
  cases h with
  | finish _ hx => exact ⟨hx, rfl⟩
  | idle ha => cases ha
  | wait ha => cases ha

theorem Step.of_fire (h : Step o s .fire s') : s'.clock.firing = s.clock.firing + 1 := by
  cases h with
  | fire => rfl
  | idle ha => cases ha
  | wait ha => cases ha

/-- `Rename` ends, or waits for an item of the new name, after it has removed some. -/
theorem renameLoop_rule {id : Handle} {name : Text} {order : List Handle} {P Q : State → Prop}
    (hremove : ∀ {s existing y}, P s → s.lookup.lookup existing = some y → (s.item y).uploading = false →
      P (removeFound s y))
    (hwait : ∀ {s existing y} (call : Call), P s → s.lookup.lookup existing = some y → existing ≠ id →
      (s.item y).name = name → (s.item y).uploading = true → Q (wait s call))
    (hend : ∀ {s}, P s → Q ((s.modify x fun i => { i with name }).update x (newExpiry o s)).resetTimer) (h : P s) :
    Q (renameLoop o id x name order s) := by
  induction order generalizing s with
  | nil => exact hend h
  | cons existing rest ih =>
    unfold renameLoop
    split
    · exact ih h
    · rename_i y hy
      split_ifs with hmatch hup
      · exact hwait _ h hy hmatch.1 hmatch.2 hup
      · exact ih (hremove h hy (eq_false_of_ne_true hup))
      · exact ih h

/-! ## One item at a time -/

theorem expiry_of_less (item : Ptr → Item) (x y : Ptr) : (less item x y = true → (item x).expiry ≤ (item y).expiry) ∧
    (¬less item x y = true → (item y).expiry ≤ (item x).expiry) := by
  unfold less
  split_ifs with heq
  · exact ⟨fun _ => heq.le, fun _ => heq.ge⟩
  · rw [decide_eq_true_eq]
    exact ⟨le_of_lt, not_lt.mp⟩

theorem least_spec {item : Ptr → Item} {heap : List Ptr} (h : least item heap = some x) :
    x ∈ heap ∧ ∀ y ∈ heap, (item x).expiry ≤ (item y).expiry := by
  induction heap generalizing x with
  | nil => cases h
  | cons z heap ih =>
    cases hrest : least item heap with
    | none =>
      have hnil : heap = [] := by
        cases heap with
        | nil => rfl
        | cons _ _ => cases hrest
      rw [least, hrest] at h
      cases h
      simp [hnil]
    | some w =>
      obtain ⟨hw, hle⟩ := ih hrest
      rw [least, hrest, Option.filter_some] at h
      split_ifs at h with hless
      · cases h
        exact ⟨List.mem_cons_of_mem z hw, List.forall_mem_cons.mpr ⟨(expiry_of_less item w z).1 hless, hle⟩⟩
      · cases h
        have hz := (expiry_of_less item w z).2 hless
        exact ⟨List.mem_cons_self, List.forall_mem_cons.mpr ⟨le_rfl, fun y hy => hz.trans (hle y hy)⟩⟩

namespace State

variable {s : State} {x y : Ptr} {f : Item → Item}

theorem item_modify_self : (s.modify x f).item x = f (s.item x) := Function.update_self ..

theorem item_modify_of_ne (h : y ≠ x) : (s.modify x f).item y = s.item y := Function.update_of_ne h ..

theorem modify_forall {p : Item → Prop} (h : ∀ y, p (s.item y)) (hx : p (f (s.item x))) (y : Ptr) :
    p ((s.modify x f).item y) := by
  by_cases hy : y = x
  · rw [hy, item_modify_self]
    exact hx
  · rw [item_modify_of_ne hy]
    exact h y

theorem modify_congr {β : Type*} (g : Item → β) (hx : g (f (s.item x)) = g (s.item x)) (y : Ptr) :
    g ((s.modify x f).item y) = g (s.item y) := by
  by_cases hy : y = x
  · rw [hy, item_modify_self, hx]
  · rw [item_modify_of_ne hy]

theorem peekItem_modify (hexpiry : (f (s.item x)).expiry = (s.item x).expiry)
    (hid : (f (s.item x)).id = (s.item x).id) : (s.modify x f).peekItem = s.peekItem := by
  have hleast : ∀ heap, least (s.modify x f).item heap = least s.item heap := by
    intro heap
    induction heap with
    | nil => rfl
    | cons y heap ih =>
      simp only [least, ih, less, modify_congr Item.expiry hexpiry, modify_congr Item.id hid]
  exact hleast s.heap

theorem mem_of_peekItem (h : s.peekItem = some x) : x ∈ s.heap := (least_spec h).1

theorem peekItem_le (h : s.peekItem = some x) (hy : y ∈ s.heap) : (s.item x).expiry ≤ (s.item y).expiry :=
  (least_spec h).2 y hy

theorem exists_peekItem (hy : y ∈ s.heap) : ∃ x, s.peekItem = some x := by
  cases hheap : s.heap with
  | nil =>
    rw [hheap] at hy
    cases hy
  | cons x heap =>
    rw [peekItem, hheap]
    exact ⟨_, rfl⟩

end State

end ZClone.WriteBack
