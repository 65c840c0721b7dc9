import ZClone.Lib.Run
import ZClone.WriteBack.Basic

/-!
# The write-back queue is attended to (`vfs/vfscache/writeback/writeback.go`)

While an item is queued, the timer is set for it or on its way, or there is no room for another upload (`Attended`).

- `Clock.Good` relates the timer to the time it was set for; only `Clock.reset`, `Clock.stop`, the clock and a firing
  touch it.
- Every call ends with `_resetTimer`, after which the timer is set for the item at the front (`Items.resetTimer`). The
  exception is a `Rename` that has put its item back on the heap and then waits for an item of the new name. `Safe`
  rules it out.
-/

namespace ZClone.WriteBack

open List
open Paths (Text)

/-- The timer will fire no later than the item at the front expires, at once if it has, or a firing is on its way, or
there is no room for another upload. -/
def Attended (o : Options) (s : State) : Prop :=
  ∀ x, s.peekItem = some x →
    (∃ due, s.clock.timer = some due ∧ due ≤ max (s.item x).expiry s.clock.now) ∨ 0 < s.clock.firing ∨
      o.transfers ≤ s.uploads

/-- `Rename` does not have to wait for another item of the new name. -/
def Quiet (s : State) (id : Handle) (name : Text) : Prop :=
  ∀ existing y, s.lookup.lookup existing = some y → existing ≠ id → (s.item y).name = name →
    (s.item y).uploading = false

/-- No item is set to expire at the zero time, and a `Rename` that goes on after its item was uploaded in the meantime
does not have to wait again. -/
def Safe (s : State) : Action → Prop
  | .setExpiry id expiry relative =>
    ∀ x, s.lookup.lookup id = some x → (if expiry = 0 then (s.item x).expiry else expiry) + relative ≠ 0
  | .resume (.rename id x name, _) _ => (s.item x).onHeap = true ∨ Quiet s id name
  | _ => True

/-! ## The timer -/

section Timer

variable {c : Clock}

/-- A timer is set for `expiry`, or it has fired. The clock shows a time so late that no delay leads back to the zero
time. -/
structure Clock.Good (c : Clock) : Prop where
  now : 2 ^ 63 < c.now
  timer : c.expiry ≠ 0 → (∃ due, c.timer = some due ∧ c.expiry ≤ due ∧ due ≤ max c.expiry c.now) ∨ 0 < c.firing ∧
    c.expiry ≤ c.now

/-- Where no firing is on its way to an expired item, setting the timer for the front item is all that is needed. -/
theorem Clock.reset_good {e : Option Int} (hnow : 2 ^ 63 < c.now) (h : ∀ t ∈ e, c.expiry = t → c.Good) :
    (c.reset e).Good := by
  cases e with
  | none =>
    unfold Clock.reset Clock.stop
    split_ifs with hzero
    · exact ⟨hnow, fun hne => absurd hzero hne⟩
    · exact ⟨hnow, fun hne => absurd rfl hne⟩
  | some t =>
    unfold Clock.reset
    dsimp only
    split_ifs with heq
    · exact h t rfl heq
    · exact ⟨hnow, fun _ => .inl ⟨_, rfl, by dsimp only; omega, by dsimp only; omega⟩⟩

theorem Clock.Good.fire (h : c.Good) {due : Int} (htimer : c.timer = some due) (hdue : due ≤ c.now) :
    Clock.Good { c with timer := none, firing := c.firing + 1 } where
  now := h.now
  timer hne := by
    refine .inr ⟨Nat.succ_pos _, ?_⟩
    rcases h.timer hne with ⟨due', htimer', hle, -⟩ | ⟨-, hle⟩
    · cases htimer.symm.trans htimer'
      exact hle.trans hdue
    · exact hle

theorem Clock.Good.tick (h : c.Good) (d : Nat) : Clock.Good { c with now := c.now + d } where
  now := by have := h.now; dsimp only; omega
  timer hne := by
    rcases h.timer hne with ⟨due, htimer, hle, hmax⟩ | ⟨hfiring, hle⟩
    · exact .inl ⟨due, htimer, hle, by dsimp only; omega⟩
    · exact .inr ⟨hfiring, by dsimp only; omega⟩

theorem Clock.reset_expiry (t : Int) : (c.reset (some t)).expiry = t := by
  unfold Clock.reset
  dsimp only
  split_ifs with h
  · exact h
  · rfl

end Timer

/-! ## What every state satisfies -/

/-- The delays of an item. With a write-back time that is not out of all proportion they are never negative. -/
def IsDelay (o : Options) (d : Int) : Prop :=
  IsDuration d ∧ (0 ≤ o.writeBack → o.writeBack < 2 ^ 62 → 0 ≤ d ∧ d < 2 ^ 62)

theorem isDelay_retryDelay {o : Options} {d : Int} (h : IsDelay o d) (outcome : Outcome) :
    IsDelay o (retryDelay o outcome d) := by
  obtain ⟨⟨hlow, hhigh⟩, hsmall⟩ := h
  unfold retryDelay
  split_ifs
  · exact ⟨o.isDuration, fun hpos hlt => ⟨hpos, hlt⟩⟩
  · have hint := le_int64 (d * 2)
    have hmax : maxUploadDelay = 300000000000 := rfl
    refine ⟨⟨by omega, by omega⟩, fun hpos hlt => ?_⟩
    rw [int64_of_lt (by omega) (by omega)]
    omega

structure Items (o : Options) (s : State) : Prop where
  expiry : ∀ x, (s.item x).expiry ≠ 0
  delay : ∀ x, IsDelay o (s.item x).delay
  uploads : s.uploads = s.running.length

structure Sound (o : Options) (s : State) : Prop extends Items o s where
  clock : s.clock.Good

structure Inv (o : Options) (s : State) : Prop extends Sound o s where
  front : ∀ x, s.peekItem = some x → s.clock.expiry = (s.item x).expiry ∨ o.transfers ≤ s.uploads

section Steps

variable {o : Options} {s s' : State} {x : Ptr} {name : Text} {f : Item → Item} {id : Handle} {order : List Handle}

theorem Inv.attended (h : Inv o s) : Attended o s := by
  intro x hx
  rcases h.front x hx with hfront | hfull
  · rcases h.clock.timer (hfront ▸ h.expiry x) with ⟨due, htimer, -, hdue⟩ | ⟨hfiring, -⟩
    · exact .inl ⟨due, htimer, hfront ▸ hdue⟩
    · exact .inr (.inl hfiring)
  · exact .inr (.inr hfull)

theorem Items.modify (h : Items o s) (hexpiry : (f (s.item x)).expiry ≠ 0)
    (hdelay : IsDelay o (f (s.item x)).delay) : Items o (s.modify x f) where
  expiry := State.modify_forall (p := fun i => i.expiry ≠ 0) h.expiry hexpiry
  delay := State.modify_forall (p := fun i => IsDelay o i.delay) h.delay hdelay
  uploads := h.uploads

theorem Sound.pushItem (h : Sound o s) (x : Ptr) : Sound o (s.pushItem x) := by
  unfold State.pushItem
  split_ifs
  · exact h
  · have hpushed : Items o { s with heap := x :: s.heap } := { h with }
    exact ⟨hpushed.modify (h.expiry x) (h.delay x), h.clock⟩

theorem Sound.removeItem (h : Sound o s) (x : Ptr) : Sound o (s.removeItem x) := by
  unfold State.removeItem
  split_ifs
  · have hremoved : Items o { s with heap := s.heap.erase x } := { h with }
    exact ⟨hremoved.modify (h.expiry x) (h.delay x), h.clock⟩
  · exact h

theorem Sound.update (h : Sound o s) {t : Int} (ht : t ≠ 0) :
    Sound o (s.update x t) := ⟨h.modify ht (h.delay x), h.clock⟩

theorem Items.resetTimer (h : Items o s) (hnow : 2 ^ 63 < s.clock.now)
    (hgood : ∀ y, s.peekItem = some y → s.clock.expiry = (s.item y).expiry → s.clock.Good) : Inv o s.resetTimer where
  toItems := { h with }
  clock := by
    refine Clock.reset_good hnow fun t ht heq => ?_
    obtain ⟨y, hy, rfl⟩ := Option.map_eq_some_iff.mp ht
    exact hgood y hy heq
  front y hy := by
    have hfront : s.peekItem = some y := hy
    left
    simp only [State.resetTimer, hfront, Option.map_some, Clock.reset_expiry]

theorem Sound.resetTimer (h : Sound o s) : Inv o s.resetTimer := h.toItems.resetTimer h.clock.now fun _ _ _ => h.clock

theorem le_newExpiry (o : Options) (s : State) : s.clock.now ≤ newExpiry o s := by
  unfold newExpiry
  split_ifs <;> omega

theorem Sound.kick (h : Sound o s) : Inv o (s.update x (newExpiry o s)).resetTimer := by
  have hnow := h.clock.now
  have hle := le_newExpiry o s
  exact (h.update (by omega)).resetTimer

theorem Sound.newItem (h : Sound o s) (id : Handle) (name : Text) : Inv o (newItem o s id name).resetTimer := by
  have hnow := h.clock.now
  have hle := le_newExpiry o s
  have hmade : Items o (s.modify s.fresh fun _ =>
      { name, id := if id = 0 then s.id + 1 else id, expiry := newExpiry o s, delay := o.writeBack }) :=
    h.modify (by dsimp only; omega) ⟨o.isDuration, fun hpos hlt => ⟨hpos, hlt⟩⟩
  apply Sound.resetTimer
  apply Sound.pushItem
  exact { hmade with clock := h.clock }

theorem Sound.removeFound (h : Sound o s) (x : Ptr) : Inv o (removeFound s x) := by
  have hrest := h.removeItem x
  have hdel : Sound o ((s.removeItem x).delItem x) := { hrest with }
  exact hdel.resetTimer

theorem Inv.wait (h : Inv o s) (call : Call) : Inv o (wait s call) := { h with }

theorem Sound.rename (h : Sound o s) (name : Text) :
    Inv o ((s.modify x fun i => { i with name }).update x (newExpiry o s)).resetTimer :=
  Sound.kick (s := s.modify x fun i => { i with name }) ⟨h.modify (h.expiry x) (h.delay x), h.clock⟩

theorem Inv.renameLoop (h : Inv o s) : Inv o (renameLoop o id x name order s) :=
  renameLoop_rule (fun h _ _ => h.toSound.removeFound _) (fun call h _ _ _ _ => h.wait call)
    (fun h => h.toSound.rename name) h

theorem Quiet.modify (h : Quiet s id name) (hname : (f (s.item x)).name = (s.item x).name)
    (hup : (f (s.item x)).uploading = (s.item x).uploading) : Quiet (s.modify x f) id name := by
  intro existing y hy hne hsame
  rw [State.modify_congr Item.name hname] at hsame
  rw [State.modify_congr Item.uploading hup]
  exact h existing y hy hne hsame

theorem Quiet.pushItem (h : Quiet s id name) (x : Ptr) : Quiet (s.pushItem x) id name := by
  unfold State.pushItem
  split_ifs
  · exact h
  · exact .modify (s := { s with heap := x :: s.heap }) h rfl rfl

theorem Quiet.removeFound (h : Quiet s id name) (x : Ptr) : Quiet (removeFound s x) id name := by
  have hitem : Quiet (s.removeItem x) id name := by
    unfold State.removeItem
    split_ifs
    · exact .modify (s := { s with heap := s.heap.erase x }) h rfl rfl
    · exact h
  intro existing y hy hne hname
  refine hitem existing y ?_ hne hname
  have herase : ((s.removeItem x).lookup.erase ((s.removeItem x).item x).id).lookup existing = some y := hy
  by_cases heq : existing = ((s.removeItem x).item x).id
  · rw [heq, AList.lookup_erase] at herase
    cases herase
  · rwa [AList.lookup_erase_ne heq] at herase

theorem Sound.renameLoop (h : Sound o s) (hquiet : Quiet s id name) : Inv o (renameLoop o id x name order s) := by
  refine renameLoop_rule (P := fun s => Sound o s ∧ Quiet s id name) ?_ ?_ (fun h => h.1.rename name) ⟨h, hquiet⟩
  · exact fun h _ _ => ⟨(h.1.removeFound _).toSound, h.2.removeFound _⟩
  · intro t existing y call h hy hne hname hup
    rw [h.2 existing y hy hne hname] at hup
    cases hup

theorem Sound.requeue (h : Sound o s) (x : Ptr) (outcome : Outcome) : Sound o (requeue o s x outcome) := by
  have hnow := h.clock.now
  have hdelay := isDelay_retryDelay (h.delay x) outcome
  have hlow := hdelay.1.1
  have hset : Sound o (s.modify x fun i => { i with delay := retryDelay o outcome i.delay }) :=
    ⟨h.modify (h.expiry x) hdelay, h.clock⟩
  exact (hset.pushItem x).update (by omega)

theorem Sound.ended (h : Sound o s) (hx : x ∈ s.running) : Sound o (ended s x) := by
  have huploads := h.uploads
  have hlength := length_erase_of_mem hx
  have hpos := length_pos_of_mem hx
  have hgone : Items o { s with running := s.running.erase x, uploads := s.uploads - 1 } :=
    ⟨h.expiry, h.delay, by dsimp only; omega⟩
  exact ⟨hgone.modify (h.expiry x) (h.delay x), h.clock⟩

theorem Inv.closeDone (h : Inv o s) (x : Ptr) : Inv o (closeDone s x) := by
  refine ⟨⟨h.modify (h.expiry x) (h.delay x), h.clock⟩, fun y hy => ?_⟩
  unfold WriteBack.closeDone at hy ⊢
  rw [State.peekItem_modify rfl rfl] at hy
  rw [State.modify_congr Item.expiry rfl]
  exact h.front y hy

theorem Sound.finish (h : Sound o s) (hx : x ∈ s.running) (outcome : Outcome) : Inv o (finished o s x outcome) := by
  have hended := h.ended hx
  refine (Sound.resetTimer ?_).closeDone x
  split_ifs
  · exact { hended with }
  · exact hended.requeue x outcome

/-! ### `processItems` -/

theorem Items.start (h : Items o s) (x : Ptr) : Items o (start s x) := by
  have hmore : Items o { s with heap := s.heap.erase x, uploads := s.uploads + 1, running := x :: s.running } :=
    ⟨h.expiry, h.delay, by rw [length_cons, h.uploads, Nat.cast_succ]⟩
  exact hmore.modify (h.expiry x) (h.delay x)

theorem processLoop_spec (fuel : Nat) (hfuel : s.heap.length ≤ fuel) (h : Items o s) :
    Items o (processLoop o fuel s).1 ∧ (processLoop o fuel s).1.clock = s.clock ∧
      ((processLoop o fuel s).2 = true → ∀ y, (processLoop o fuel s).1.peekItem = some y →
        s.clock.now < ((processLoop o fuel s).1.item y).expiry) ∧
      ((processLoop o fuel s).2 = false → o.transfers ≤ (processLoop o fuel s).1.uploads) := by
  induction fuel generalizing s with
  | zero =>
    refine ⟨h, rfl, fun _ y hy => ?_, fun hfalse => by cases hfalse⟩
    rw [processLoop, State.peekItem, length_eq_zero_iff.mp (Nat.le_zero.mp hfuel)] at hy
    cases hy
  | succ fuel ih =>
    unfold processLoop
    split
    · rename_i hnone
      refine ⟨h, rfl, fun _ y hy => ?_, fun hfalse => by cases hfalse⟩
      rw [hnone] at hy
      cases hy
    · rename_i x hx
      split_ifs with hfull hearly
      · exact ⟨h, rfl, fun hno => hno.elim, fun _ => hfull⟩
      · refine ⟨h, rfl, fun _ y hy => ?_, fun hfalse => by cases hfalse⟩
        rw [hx] at hy
        cases hy
        exact hearly
      · refine ih (s := WriteBack.start s x) ?_ (h.start x)
        have hlength := length_erase_of_mem (State.mem_of_peekItem hx)
        show (s.heap.erase x).length ≤ fuel
        omega

/-- A firing is used up; if an item is at the front afterwards that the timer was set for, it has not fired yet. -/
theorem Inv.processItems (h : Inv o s) : Inv o (processItems o s.useFiring) := by
  have hitems : Items o s.useFiring := { h with }
  obtain ⟨hrest, hclock, htrue, hfalse⟩ := processLoop_spec _ le_rfl hitems
  unfold WriteBack.processItems
  dsimp only
  split_ifs with hreset
  · refine hrest.resetTimer (hclock ▸ h.clock.now) fun y hy heq => ?_
    rw [hclock] at heq ⊢
    have hlater := htrue hreset y hy
    refine ⟨h.clock.now, fun hne => ?_⟩
    rcases h.clock.timer hne with htimer | ⟨-, hle⟩
    · exact .inl htimer
    · exact absurd (heq ▸ hlater) (not_lt.mpr hle)
  · refine { hrest with clock := ?_, front := fun y _ => .inr (hfalse (by simpa using hreset)) }
    unfold State.stopTimer Clock.stop
    split_ifs with hzero
    · exact ⟨hclock ▸ h.clock.now, fun hne => absurd hzero hne⟩
    · exact ⟨hclock ▸ h.clock.now, fun hne => absurd rfl hne⟩

/-! ### Every step -/

theorem Inv.resumed {call : Call × Nat} (h : Inv o s) (hsafe : Safe s (.resume call order)) :
    Inv o (resumed o ({ s with waiting := s.waiting.erase call }.pushItem call.1.target) order call.1) := by
  obtain ⟨call, n⟩ := call
  have hrest : Inv o { s with waiting := s.waiting.erase (call, n) } := { h with }
  have hpushed := hrest.toSound.pushItem call.target
  cases call with
  | add x => exact hpushed.kick
  | remove x => exact hpushed.removeFound x
  | rename id x name =>
    rcases hsafe with hheap | hquiet
    · have hsame : State.pushItem { s with waiting := s.waiting.erase (.rename id x name, n) } x = _ := if_pos hheap
      rw [Call.target, hsame]
      exact hrest.renameLoop
    · have hsame : Quiet { s with waiting := s.waiting.erase (.rename id x name, n) } id name := hquiet
      exact hpushed.renameLoop (hsame.pushItem x)
  | renameRemove id x name rest y => exact (hpushed.removeFound y).renameLoop

theorem Inv.step {a : Action} (h : Inv o s) (hsafe : Safe s a) (hstep : Step o s a s') : Inv o s' := by
  cases hstep with
  | tick d => exact { h with clock := h.clock.tick d }
  | fire htimer hdue => exact { h with clock := h.clock.fire htimer hdue }
  | process => exact h.processItems
  | setID => exact { h with }
  | idle => exact h
  | reset => exact h.toSound.resetTimer
  | wait _ call => exact h.wait call
  | add name => exact h.toSound.newItem _ name
  | kick => exact h.toSound.kick
  | remove => exact h.toSound.removeFound _
  | rename => exact h.renameLoop
  | setExpiry expiry relative hfound => exact (h.toSound.update (hsafe _ hfound)).resetTimer
  | finish outcome hx => exact h.toSound.finish hx outcome
  | resume => exact h.resumed hsafe

end Steps

end ZClone.WriteBack
