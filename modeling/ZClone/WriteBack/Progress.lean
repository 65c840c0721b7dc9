import ZClone.WriteBack.Attended

/-!
# Queued items are started (`vfs/vfscache/writeback/writeback.go`)

In an unending run in which the clock runs on, due timers fire, firings get the lock and uploads finish (`FairRun`), no
item stays on the heap (`FairRun.not_stays`).

- Once an item has expired nothing gets ahead of it any more (`ahead_step_le`), and every upload that is started while
  it waits is one of an item ahead of it (`processLoop_count`). So from some point on no upload is started.
- The uploads under way finish, there is room, and the queue is attended to: a firing comes and starts one. The example
  is that of one item that is added and uploaded.
-/

namespace ZClone.WriteBack

open List
open Paths (Text)

/-! ## Items ahead -/

/-- The items on the heap with a property of the item and its expiry. -/
def count (p : Ptr → Int → Bool) (s : State) : Nat := s.heap.countP fun y => p y (s.item y).expiry

/-- The items on the heap that expire by `e`. -/
def ahead (e : Int) (s : State) : Nat := count (fun _ t => t ≤ e) s

def aheadBut (e : Int) (x : Ptr) (s : State) : Nat := count (fun y t => y ≠ x ∧ t ≤ e) s

section Count

variable {o : Options} {s : State} {x : Ptr} {e : Int} {p : Ptr → Int → Bool} {f : Item → Item}

theorem count_modify (hexpiry : (f (s.item x)).expiry = (s.item x).expiry) : count p (s.modify x f) = count p s := by
  unfold count
  simp only [State.modify_congr Item.expiry hexpiry]
  rfl

theorem count_removeItem_le : count p (s.removeItem x) ≤ count p s := by
  unfold State.removeItem
  split_ifs
  · rw [count_modify (s := { s with heap := s.heap.erase x }) rfl]
    exact erase_sublist.countP_le
  · exact le_rfl

theorem count_removeFound_le : count p (removeFound s x) ≤ count p s := count_removeItem_le

theorem count_resetTimer (s : State) : count p s.resetTimer = count p s := rfl

theorem aheadBut_le : aheadBut e x s ≤ ahead e s := by
  refine countP_mono_left fun y _ hy => ?_
  simp only [decide_eq_true_eq] at hy ⊢
  exact hy.2

theorem aheadBut_pushItem : aheadBut e x (s.pushItem x) = aheadBut e x s := by
  unfold State.pushItem
  split_ifs
  · rfl
  · unfold aheadBut
    rw [count_modify (s := { s with heap := x :: s.heap }) rfl]
    exact countP_cons_of_neg (by simp)

theorem ahead_update {t : Int} (ht : e < t) : ahead e (s.update x t) = aheadBut e x s := by
  refine countP_congr fun y _ => ?_
  by_cases hy : y = x
  · simp [hy, State.update, State.item_modify_self, ht]
  · simp [hy, State.update, State.item_modify_of_ne hy]

theorem ahead_removeFound_pushItem_le : ahead e (removeFound (s.pushItem x) x) ≤ ahead e s := by
  by_cases hheap : (s.item x).onHeap = true
  · rw [State.pushItem, if_pos hheap]
    exact count_removeFound_le
  · rw [State.pushItem, if_neg hheap]
    generalize hpushed : State.modify { s with heap := x :: s.heap } x (fun i => { i with onHeap := true }) = s₁
    have hexpiry : ∀ y, (s₁.item y).expiry = (s.item y).expiry := by
      intro y
      rw [← hpushed, State.modify_congr Item.expiry rfl]
    have hflag : (s₁.item x).onHeap = true := by rw [← hpushed, State.item_modify_self]
    have herase : s₁.heap.erase x = s.heap := by
      rw [← hpushed]
      exact erase_cons_head ..
    -- what was pushed is taken out again
    have hback : count (fun _ t => t ≤ e) { s₁ with heap := s₁.heap.erase x } = ahead e s := by
      unfold ahead count
      simp only [hexpiry, herase]
    have hremove : ahead e (removeFound s₁ x) = count (fun _ t => t ≤ e) (s₁.removeItem x) := rfl
    rw [hremove, State.removeItem, if_pos hflag, count_modify rfl, hback]

theorem ahead_requeue_le (he : e < s.clock.now) {outcome : Outcome}
    (hdelay : 0 ≤ retryDelay o outcome (s.item x).delay) :
    ahead e (requeue o s x outcome) ≤ ahead e s := by
  unfold requeue
  rw [ahead_update (by omega), aheadBut_pushItem, aheadBut, count_modify rfl]
  exact aheadBut_le

theorem ahead_newItem_le (he : e < s.clock.now) (id : Handle) (name : Text) :
    ahead e (newItem o s id name) ≤ ahead e s := by
  have hexpiry := he.trans_le (le_newExpiry o s)
  unfold newItem
  -- the new item is not on the heap yet, and expires after `e`
  rw [State.pushItem, if_neg (by simp)]
  unfold ahead
  rw [count_modify rfl]
  unfold count
  rw [countP_cons_of_neg (by simpa using hexpiry)]
  refine countP_mono_left fun y _ hy => ?_
  by_cases hfresh : y = s.fresh
  · simp only [hfresh, Function.update_self, decide_eq_true_eq] at hy
    omega
  · simpa only [Function.update_of_ne hfresh] using hy

end Count

/-! ## What calls leave alone -/

def frame (s : State) : Int × Nat × List Ptr := (s.clock.now, s.clock.firing, s.running)

section Frame

variable {o : Options} {s s' : State} {x y : Ptr} {e : Int} {id : Handle} {name : Text} {order : List Handle}
  {a : Action}

theorem frame_resetTimer (s : State) : frame s.resetTimer = frame s := by
  have hclock : ∀ (c : Clock) (t : Option Int), ((c.reset t).now, (c.reset t).firing) = (c.now, c.firing) := by
    intro c t
    unfold Clock.reset Clock.stop
    cases t <;> dsimp only <;> split_ifs <;> rfl
  have hsame := Prod.ext_iff.mp (hclock s.clock (s.peekItem.map fun x => (s.item x).expiry))
  exact Prod.ext hsame.1 (Prod.ext hsame.2 rfl)

theorem frame_pushItem (s : State) (x : Ptr) : frame (s.pushItem x) = frame s := by
  unfold State.pushItem
  split_ifs <;> rfl

theorem frame_removeFound (s : State) (x : Ptr) : frame (removeFound s x) = frame s := by
  rw [removeFound, frame_resetTimer]
  unfold State.removeItem
  split_ifs <;> rfl

theorem now_removeFound (s : State) (x : Ptr) : (removeFound s x).clock.now = s.clock.now :=
  congrArg Prod.fst (frame_removeFound s x)

theorem frame_renameLoop : frame (renameLoop o id x name order s) = frame s := by
  refine renameLoop_rule (P := fun t => frame t = frame s) (Q := fun t => frame t = frame s) ?_ ?_ ?_ rfl
  · exact fun h _ _ => (frame_removeFound ..).trans h
  · exact fun _ h _ _ _ _ => h
  · exact fun h => (frame_resetTimer _).trans h

/-- At its end `Rename` gives its item a new expiry. -/
theorem ahead_rename_end (he : e < s.clock.now) :
    ahead e ((s.modify x fun i => { i with name }).update x (newExpiry o s)).resetTimer = aheadBut e x s := by
  refine (ahead_update (he.trans_le (le_newExpiry o s))).trans ?_
  exact count_modify rfl

theorem ahead_renameLoop_le (he : e < s.clock.now) : ahead e (renameLoop o id x name order s) ≤ ahead e s := by
  refine renameLoop_rule (P := fun t => ahead e t ≤ ahead e s ∧ e < t.clock.now) (Q := fun t => ahead e t ≤ ahead e s)
    ?_ ?_ ?_
    ⟨le_rfl, he⟩
  · exact fun h _ _ => ⟨count_removeFound_le.trans h.1, (now_removeFound ..).symm ▸ h.2⟩
  · exact fun _ h _ _ _ _ => h.1
  · exact fun h => (ahead_rename_end h.2).trans_le (aheadBut_le.trans h.1)

theorem ahead_renameLoop_quiet (he : e < s.clock.now) (hquiet : Quiet s id name) :
    ahead e (renameLoop o id x name order s) ≤ aheadBut e x s := by
  refine renameLoop_rule (P := fun t => aheadBut e x t ≤ aheadBut e x s ∧ e < t.clock.now ∧ Quiet t id name)
    (Q := fun t => ahead e t ≤ aheadBut e x s) ?_ ?_ ?_ ⟨le_rfl, he, hquiet⟩
  · exact fun h _ _ => ⟨count_removeFound_le.trans h.1, (now_removeFound ..).symm ▸ h.2.1, h.2.2.removeFound _⟩
  · intro t existing y call h hy hne hname hup
    rw [h.2.2 existing y hy hne hname] at hup
    cases hup
  · exact fun h => (ahead_rename_end h.2.1).trans_le h.1

theorem frame_finished (outcome : Outcome) :
    frame (finished o s x outcome) = (s.clock.now, s.clock.firing, s.running.erase x) := by
  refine (frame_resetTimer _).trans ?_
  split_ifs
  · rfl
  · exact frame_pushItem ..

theorem frame_resumed (call : Call × Nat) :
    frame (resumed o ({ s with waiting := s.waiting.erase call }.pushItem call.1.target) order call.1) = frame s := by
  have hpushed := frame_pushItem { s with waiting := s.waiting.erase call } call.1.target
  obtain ⟨call, n⟩ := call
  cases call with
  | add x => exact (frame_resetTimer _).trans hpushed
  | remove x => exact (frame_removeFound ..).trans hpushed
  | rename id x name => exact frame_renameLoop.trans hpushed
  | renameRemove id x name rest y => exact frame_renameLoop.trans ((frame_removeFound ..).trans hpushed)

/-- Only `processItems` starts uploads and uses firings up. -/
theorem frame_step (hstep : Step o s a s') (ha : a ≠ .processItems) :
    s.clock.now ≤ s'.clock.now ∧ s.clock.firing ≤ s'.clock.firing ∧ s'.running.length ≤ s.running.length := by
  have hsame : frame s' = frame s → s.clock.now ≤ s'.clock.now ∧ s.clock.firing ≤ s'.clock.firing ∧
      s'.running.length ≤ s.running.length := by
    intro h
    simp only [frame, Prod.mk.injEq] at h
    rw [h.1, h.2.1, h.2.2]
    exact ⟨le_rfl, le_rfl, le_rfl⟩
  cases hstep with
  | tick d => exact ⟨by dsimp only; omega, le_rfl, le_rfl⟩
  | fire => exact ⟨le_rfl, Nat.le_succ _, le_rfl⟩
  | process => exact absurd rfl ha
  | setID | idle | wait => exact hsame rfl
  | reset => exact hsame (frame_resetTimer _)
  | add => exact hsame ((frame_resetTimer _).trans (frame_pushItem ..))
  | kick => exact hsame (frame_resetTimer _)
  | remove => exact hsame (frame_removeFound ..)
  | rename => exact hsame frame_renameLoop
  | setExpiry => exact hsame (frame_resetTimer _)
  | @finish x outcome =>
    have hfinished := frame_finished (o := o) (s := s) (x := x) outcome
    simp only [frame, Prod.mk.injEq] at hfinished
    rw [hfinished.1, hfinished.2.1, hfinished.2.2]
    exact ⟨le_rfl, le_rfl, length_erase_le⟩
  | resume call => exact hsame (frame_resumed call)

/-! ## Nothing gets ahead of an expired item -/

theorem ahead_resumed_le (he : e < s.clock.now) {call : Call × Nat} (hsafe : Safe s (.resume call order)) :
    ahead e (resumed o ({ s with waiting := s.waiting.erase call }.pushItem call.1.target) order call.1) ≤
      ahead e s := by
  obtain ⟨call, n⟩ := call
  have hnow : e < (State.pushItem { s with waiting := s.waiting.erase (call, n) } call.target).clock.now := by
    unfold State.pushItem
    split_ifs <;> exact he
  cases call with
  | add x =>
    refine (ahead_update (hnow.trans_le (le_newExpiry o _))).trans_le ?_
    exact aheadBut_pushItem.trans_le aheadBut_le
  | remove x => exact ahead_removeFound_pushItem_le
  | rename id x name =>
    rcases hsafe with hheap | hquiet
    · refine (ahead_renameLoop_le hnow).trans_eq ?_
      rw [Call.target, State.pushItem, if_pos hheap]
      rfl
    · have hsame : Quiet { s with waiting := s.waiting.erase (.rename id x name, n) } id name := hquiet
      refine (ahead_renameLoop_quiet hnow (hsame.pushItem x)).trans ?_
      exact aheadBut_pushItem.trans_le aheadBut_le
  | renameRemove id x name rest y =>
    refine (ahead_renameLoop_le ((now_removeFound ..).symm ▸ hnow)).trans ?_
    exact ahead_removeFound_pushItem_le

section

variable (h : Inv o s) (hpos : 0 ≤ o.writeBack) (hlt : o.writeBack < 2 ^ 62) (he : e < s.clock.now)

include h hpos hlt he

theorem ahead_finished_le (outcome : Outcome) : ahead e (finished o s x outcome) ≤ ahead e s := by
  have hsame : ((ended s x).item x).delay = (s.item x).delay := by rw [ended, State.item_modify_self]
  have hdelay : 0 ≤ retryDelay o outcome ((ended s x).item x).delay := by
    rw [hsame]
    exact ((isDelay_retryDelay (h.delay x) outcome).2 hpos hlt).1
  have hended : ahead e (ended s x) = ahead e s := count_modify rfl
  unfold finished
  rw [← hended, ahead, closeDone, count_modify rfl, count_resetTimer]
  split_ifs
  · exact le_rfl
  · exact ahead_requeue_le (s := ended s x) he hdelay

theorem ahead_step_le (hsafe : Safe s a) (hstep : Step o s a s') (ha : a ≠ .processItems)
    (hset : ∀ id expiry relative, a ≠ .setExpiry id expiry relative) : ahead e s' ≤ ahead e s := by
  cases hstep with
  | tick | fire | setID | idle | reset | wait => exact le_rfl
  | process => exact absurd rfl ha
  | add name => exact ahead_newItem_le he _ name
  | kick => exact (ahead_update (he.trans_le (le_newExpiry o s))).trans_le aheadBut_le
  | remove => exact count_removeFound_le
  | rename => exact ahead_renameLoop_le he
  | setExpiry => exact absurd rfl (hset _ _ _)
  | finish outcome => exact ahead_finished_le h hpos hlt he outcome
  | resume => exact ahead_resumed_le he hsafe

end

/-- What the start of an upload keeps, `processItems` keeps. -/
theorem processLoop_rule {P : State → Prop} (hstart : ∀ s x, P s → P (start s x)) (fuel : Nat) (h : P s) :
    P (processLoop o fuel s).1 := by
  induction fuel generalizing s with
  | zero => exact h
  | succ fuel ih =>
    unfold processLoop
    split
    · exact h
    · split_ifs
      · exact h
      · exact h
      · exact ih (hstart s _ h)

theorem processLoop_heap (fuel : Nat) : x ∈ (processLoop o fuel s).1.heap → x ∈ s.heap :=
  processLoop_rule (P := fun t => x ∈ t.heap → x ∈ s.heap) (fun _ _ h hx => h (mem_of_mem_erase hx)) fuel id

theorem expiry_start (y z : Ptr) : ((start s y).item z).expiry = (s.item z).expiry := by
  rw [start, State.modify_congr Item.expiry rfl]

theorem ahead_start (hy : s.peekItem = some y) (hle : (s.item y).expiry ≤ e) : ahead e (start s y) + 1 = ahead e s := by
  have hperm := perm_cons_erase (State.mem_of_peekItem hy)
  unfold ahead count
  rw [hperm.countP_eq, countP_cons_of_pos (by simpa using hle)]
  simp only [expiry_start]
  rfl

/-- While an item stays on the heap, `processItems` starts only items ahead of it. -/
theorem processLoop_count (fuel : Nat) (hx : x ∈ (processLoop o fuel s).1.heap) :
    ((processLoop o fuel s).1.item x).expiry = (s.item x).expiry ∧
      ahead (s.item x).expiry (processLoop o fuel s).1 + (processLoop o fuel s).1.running.length =
        ahead (s.item x).expiry s + s.running.length := by
  induction fuel generalizing s with
  | zero => exact ⟨rfl, rfl⟩
  | succ fuel ih =>
    unfold processLoop at hx ⊢
    cases hpeek : s.peekItem with
    | none => exact ⟨rfl, rfl⟩
    | some y =>
      rw [hpeek] at hx
      dsimp only at hx ⊢
      split_ifs at hx ⊢ with hfull hearly
      · exact ⟨rfl, rfl⟩
      · exact ⟨rfl, rfl⟩
      · obtain ⟨hsame, hcount⟩ := ih hx
        rw [expiry_start] at hsame hcount
        have hle := State.peekItem_le hpeek (mem_of_mem_erase (processLoop_heap fuel hx))
        have hahead := ahead_start hpeek hle
        have hrunning : (start s y).running.length = s.running.length + 1 := length_cons
        exact ⟨hsame, by omega⟩

theorem processLoop_running (fuel : Nat) : s.running.length ≤ (processLoop o fuel s).1.running.length :=
  processLoop_rule (P := fun t => s.running.length ≤ t.running.length) (fun _ _ h => h.trans (Nat.le_succ _))
    fuel le_rfl

theorem processItems_eq (s : State) :
    ∃ clock, clock.now = s.clock.now ∧ processItems o s = { (processLoop o s.heap.length s).1 with clock } := by
  have hclock : (processLoop o s.heap.length s).1.clock = s.clock :=
    processLoop_rule (P := fun t => t.clock = s.clock) (fun _ _ h => h) _ rfl
  unfold processItems
  dsimp only
  split_ifs
  · refine ⟨_, ?_, rfl⟩
    rw [← hclock]
    exact congrArg Prod.fst (frame_resetTimer (processLoop o s.heap.length s).1)
  · refine ⟨_, ?_, rfl⟩
    rw [hclock]
    unfold Clock.stop
    split_ifs <;> rfl

theorem now_processItems : (processItems o s).clock.now = s.clock.now := by
  obtain ⟨clock, hnow, heq⟩ := processItems_eq (o := o) s
  rw [heq]
  exact hnow

theorem ahead_processItems (hx : x ∈ (processItems o s).heap) : ((processItems o s).item x).expiry = (s.item x).expiry ∧
      ahead (s.item x).expiry (processItems o s) + (processItems o s).running.length =
        ahead (s.item x).expiry s + s.running.length := by
  obtain ⟨clock, -, heq⟩ := processItems_eq (o := o) s
  rw [heq] at hx ⊢
  exact processLoop_count _ hx

theorem running_processItems_le : s.running.length ≤ (processItems o s).running.length := by
  obtain ⟨clock, -, heq⟩ := processItems_eq (o := o) s
  rw [heq]
  exact processLoop_running _

/-- A firing starts the upload of an expired item if there is room. -/
theorem running_processItems_lt (hy : s.peekItem = some y) (hroom : s.uploads < o.transfers)
    (hexpired : (s.item y).expiry ≤ s.clock.now) : s.running.length < (processItems o s).running.length := by
  obtain ⟨clock, -, heq⟩ := processItems_eq (o := o) s
  obtain ⟨fuel, hfuel⟩ := Nat.exists_eq_succ_of_ne_zero (length_pos_of_mem (State.mem_of_peekItem hy)).ne'
  rw [heq, hfuel]
  rw [processLoop, hy]
  dsimp only
  rw [if_neg (not_le.mpr hroom), if_neg (not_lt.mpr hexpired)]
  exact processLoop_running (s := start s y) fuel

end Frame

/-! ## Runs -/

/-- A run from the start that takes only safe steps. -/
def Reachable (o : Options) (now : Int) : State → Prop :=
  Relation.ReflTransGen (fun s s' => ∃ a, Safe s a ∧ next o s a = some s') (new now)

/-- An unending run in which the clock runs on, timers that are due fire, firings get the lock and uploads finish. From
some point on no expiry is set by hand. -/
structure FairRun (o : Options) (now : Int) where
  state : Nat → State
  action : Nat → Action
  first : state 0 = new now
  step : ∀ n, next o (state n) (action n) = some (state (n + 1))
  safe : ∀ n, Safe (state n) (action n)
  ticks : ∀ t : Int, ∃ n, t < (state n).clock.now
  fires : ∀ n, (∀ m ≥ n, ∃ due, (state m).clock.timer = some due ∧ due ≤ (state m).clock.now) →
    ∃ m ≥ n, action m = .fire
  processes : ∀ n, (∀ m ≥ n, 0 < (state m).clock.firing) → ∃ m ≥ n, action m = .processItems
  finishes : ∀ n, ∀ x ∈ (state n).running, ∃ m ≥ n, ∃ outcome, action m = .finish x outcome
  settles : ∃ n, ∀ m ≥ n, ∀ id expiry relative, action m ≠ .setExpiry id expiry relative

theorem Inv.new {o : Options} {now : Int} (hclock : 2 ^ 63 < now) : Inv o (new now) where
  expiry _ := by
    show now ≠ 0
    omega
  delay _ := by
    show IsDelay o 0
    exact ⟨⟨by decide, by decide⟩, fun _ _ => ⟨le_rfl, by decide⟩⟩
  uploads := rfl
  clock := ⟨hclock, fun hne => absurd rfl hne⟩
  front _ hx := by cases hx

theorem Reachable.inv {o : Options} {now : Int} {s : State} (hclock : 2 ^ 63 < now) (h : Reachable o now s) : Inv o s :=
  Run.invariant (fun _ _ hinv ⟨_, hsafe, hstep⟩ => hinv.step hsafe (step_of_next hstep)) h (.new hclock)

namespace FairRun

variable {o : Options} {now : Int} {r : FairRun o now} {x : Ptr} {e : Int}

theorem steps (r : FairRun o now) (n : Nat) : Step o (r.state n) (r.action n) (r.state (n + 1)) :=
  step_of_next (r.step n)

theorem reachable (r : FairRun o now) (n : Nat) : Reachable o now (r.state n) := by
  induction n with
  | zero => exact r.first ▸ .refl
  | succ n ih => exact ih.tail ⟨r.action n, r.safe n, r.step n⟩

theorem inv (hclock : 2 ^ 63 < now) (n : Nat) : Inv o (r.state n) := (r.reachable n).inv hclock

theorem process_step {m : Nat} (ha : r.action m = .processItems) :
    r.state (m + 1) = processItems o (r.state m).useFiring := by
  exact Step.of_process (ha ▸ r.steps m)

theorem now_le {n m : Nat} (h : n ≤ m) : (r.state n).clock.now ≤ (r.state m).clock.now := by
  induction h with
  | refl => exact le_rfl
  | @step m _ ih =>
    refine ih.trans ?_
    by_cases ha : r.action m = .processItems
    · rw [process_step ha]
      exact now_processItems.ge
    · exact (frame_step (r.steps m) ha).1

/-- An item that stays on the heap comes to an end: the items ahead of it get fewer, as do the uploads while none is
started, and then nothing stops the next firing from starting an upload. -/
theorem not_stays (hclock : 2 ^ 63 < now) (hpos : 0 ≤ o.writeBack) (hlt : o.writeBack < 2 ^ 62)
    (hroom : 0 < o.transfers) {n : Nat}
    (hstays : ∀ m ≥ n, x ∈ (r.state m).heap ∧ ((r.state m).item x).expiry = e) : False := by
  obtain ⟨n₁, hn₁⟩ := r.ticks e
  obtain ⟨n₂, hn₂⟩ := r.settles
  obtain ⟨N, hN, hN₁, hN₂⟩ : ∃ N, n ≤ N ∧ n₁ ≤ N ∧ n₂ ≤ N := ⟨n + n₁ + n₂, by omega, by omega, by omega⟩
  have hlate : ∀ m ≥ N, e < (r.state m).clock.now := fun m hm => hn₁.trans_le (now_le (hN₁.trans hm))
  have hprocess : ∀ m ≥ N, r.action m = .processItems →
      ahead e (r.state (m + 1)) + (r.state (m + 1)).running.length = ahead e (r.state m) +
        (r.state m).running.length := by
    intro m hm ha
    have hx := (hstays (m + 1) (by omega)).1
    rw [process_step ha] at hx ⊢
    have hsum := (ahead_processItems hx).2
    rwa [show ((r.state m).useFiring.item x).expiry = e from (hstays m (hN.trans hm)).2] at hsum
  have hahead : ∀ m ≥ N, ahead e (r.state (m + 1)) ≤ ahead e (r.state m) := by
    intro m hm
    by_cases ha : r.action m = .processItems
    · have hsum := hprocess m hm ha
      have hmore : (r.state m).running.length ≤ (r.state (m + 1)).running.length := by
        rw [process_step ha]
        exact running_processItems_le (s := (r.state m).useFiring)
      omega
    · exact ahead_step_le (inv hclock m) hpos hlt (hlate m hm) (r.safe m) (r.steps m) ha (hn₂ m (hN₂.trans hm))
  obtain ⟨K, hK, hconst⟩ := Run.eventually_const (f := fun m => ahead e (r.state m)) hahead
  have hrunning : ∀ m ≥ K, (r.state (m + 1)).running.length ≤ (r.state m).running.length := by
    intro m hm
    by_cases ha : r.action m = .processItems
    · have hsum := hprocess m (hK.trans hm) ha
      have hnow := hconst m hm
      have hnext := hconst (m + 1) (by omega)
      omega
    · exact (frame_step (r.steps m) ha).2.2
  obtain ⟨M, hM, hlength⟩ := Run.eventually_const (f := fun m => (r.state m).running.length) hrunning
  -- every upload that is under way would finish
  have hnone : ∀ m ≥ M, (r.state m).running = [] := by
    intro m hm
    refine eq_nil_iff_forall_not_mem.mpr fun y hy => ?_
    obtain ⟨k, hk, outcome, ha⟩ := r.finishes m y hy
    obtain ⟨hmem, hfinished⟩ := Step.of_finish (ha ▸ r.steps k)
    have herase : (r.state (k + 1)).running.length = ((r.state k).running.erase y).length := by
      rw [hfinished]
      exact congrArg (·.2.2.length) (frame_finished outcome)
    have hlast := length_erase_of_mem hmem
    have hsome := length_pos_of_mem hmem
    have hnow := hlength k (by omega)
    have hnext := hlength (k + 1) (by omega)
    omega
  have hpeek : ∀ m ≥ M, ∃ y, (r.state m).peekItem = some y ∧ ((r.state m).item y).expiry ≤ (r.state m).clock.now := by
    intro m hm
    obtain ⟨hx, hexpiry⟩ := hstays m (by omega)
    have hnow := hlate m (by omega)
    obtain ⟨y, hy⟩ := State.exists_peekItem hx
    exact ⟨y, hy, ((State.peekItem_le hy hx).trans_eq hexpiry).trans hnow.le⟩
  have hroom' : ∀ m ≥ M, (r.state m).uploads < o.transfers := by
    intro m hm
    rw [(inv hclock m).uploads, hnone m hm]
    exact hroom
  -- so no firing may get the lock any more, and none may be under way
  have hidle : ∀ m ≥ M, r.action m ≠ .processItems := by
    intro m hm ha
    obtain ⟨y, hy, hexpired⟩ := hpeek m hm
    have hmore := running_processItems_lt (s := (r.state m).useFiring) hy (hroom' m hm) hexpired
    rw [← process_step ha, hnone (m + 1) (by omega)] at hmore
    exact absurd hmore (Nat.not_lt_zero _)
  have hcalm : ∀ m ≥ M, (r.state m).clock.firing = 0 := by
    intro m hm
    by_contra hfiring
    have hstill : ∀ k ≥ m, 0 < (r.state k).clock.firing := fun k hk =>
      Nat.le_induction (Nat.pos_of_ne_zero hfiring)
        (fun i hi hi' => hi'.trans_le (frame_step (r.steps i) (hidle i (le_trans hm hi))).2.1) k hk
    obtain ⟨k, hk, ha⟩ := r.processes m hstill
    exact hidle k (le_trans hm hk) ha
  obtain ⟨k, hk, ha⟩ := r.fires M fun m hm => by
    obtain ⟨y, hy, hexpired⟩ := hpeek m hm
    rcases (inv hclock m).attended y hy with ⟨due, htimer, hdue⟩ | hfiring | hfull
    · exact ⟨due, htimer, by omega⟩
    · exact absurd (hcalm m hm) hfiring.ne'
    · exact absurd hfull (not_le.mpr (hroom' m hm))
  have hfired := Step.of_fire (ha ▸ r.steps k)
  rw [hcalm (k + 1) (by omega)] at hfired
  cases hfired

end FairRun

/-- `processItems` takes the item off the heap to upload it. -/
def Started (a : Action) (s' : State) (x : Ptr) : Prop := a = .processItems ∧ x ∉ s'.heap

/-- Another step takes the item off the heap or gives it another expiry. -/
def Moved (s : State) (a : Action) (s' : State) (x : Ptr) : Prop :=
  a ≠ .processItems ∧ (x ∉ s'.heap ∨ (s'.item x).expiry ≠ (s.item x).expiry)

/-- In safe runs the queue is attended to in every state, and every queued item is started in the end, unless a call
moves it. -/
theorem queue_attended (o : Options) (now : Int) (hclock : 2 ^ 63 < now) : (∀ s, Reachable o now s → Attended o s) ∧
      (0 ≤ o.writeBack → o.writeBack < 2 ^ 62 → 0 < o.transfers → ∀ (r : FairRun o now) (n : Nat) (x : Ptr),
        x ∈ (r.state n).heap → ∃ m ≥ n, x ∈ (r.state m).heap ∧
          (Started (r.action m) (r.state (m + 1)) x ∨ Moved (r.state m) (r.action m) (r.state (m + 1)) x)) := by
  refine ⟨fun s hs => (hs.inv hclock).attended, fun hpos hlt hroom r n x hx => ?_⟩
  by_contra hnever
  refine FairRun.not_stays (r := r) (x := x) (n := n) (e := ((r.state n).item x).expiry) hclock hpos hlt hroom
    fun m hm => ?_
  induction m, hm using Nat.le_induction with
  | base => exact ⟨hx, rfl⟩
  | succ m hm ih =>
    have hstep := not_or.mp fun h => hnever ⟨m, hm, ih.1, h⟩
    by_cases ha : r.action m = .processItems
    · have hstill : x ∈ (r.state (m + 1)).heap := not_not.mp fun hgone => hstep.1 ⟨ha, hgone⟩
      refine ⟨hstill, ?_⟩
      rw [FairRun.process_step ha] at hstill ⊢
      exact (ahead_processItems hstill).1.trans ih.2
    · have hstill := not_or.mp fun h => hstep.2 ⟨ha, h⟩
      exact ⟨not_not.mp hstill.1, (not_not.mp hstill.2).trans ih.2⟩

section Examples

/-- Two items are added and expire. There is room for one upload: the second waits for the first. -/
def uploadActions : Nat → Action
  | 0 => .add 0 [97] true
  | 1 => .add 0 [98] true
  | 2 => .tick 5
  | 3 | 6 => .fire
  | 4 | 7 => .processItems
  | 5 => .finish 0 .succeeded
  | 8 => .finish 1 .succeeded
  | _ + 9 => .tick 1

def uploadOptions : Options := ⟨5, 1, by decide, by decide⟩

def uploadStates : Nat → State
  | 0 => new (2 ^ 63 + 1)
  | n + 1 => (next uploadOptions (uploadStates n) (uploadActions n)).getD (uploadStates n)

theorem uploadStates_add (k : Nat) :
    (uploadStates (k + 9)).clock = { now := 2 ^ 63 + 6 + k } ∧ (uploadStates (k + 9)).running = [] := by
  induction k with
  | zero => decide +kernel
  | succ k ih =>
    have hclock : (uploadStates (k + 1 + 9)).clock =
        { (uploadStates (k + 9)).clock with now := (uploadStates (k + 9)).clock.now + 1 } := rfl
    rw [hclock, ih.1, Nat.cast_succ, ← add_assoc]
    exact ⟨rfl, ih.2⟩

def uploadRun : FairRun uploadOptions (2 ^ 63 + 1) where
  state := uploadStates
  action := uploadActions
  first := rfl
  step
    | 0 | 1 | 2 | 3 | 4 | 5 | 6 | 7 | 8 | _ + 9 => rfl
  safe
    | 0 | 1 | 2 | 3 | 4 | 5 | 6 | 7 | 8 | _ + 9 => trivial
  ticks t := ⟨t.toNat + 9, by rw [(uploadStates_add _).1]; dsimp only; omega⟩
  fires n h := by
    obtain ⟨due, htimer, -⟩ := h (n + 9) (by omega)
    rw [(uploadStates_add n).1] at htimer
    cases htimer
  processes n h := by
    have hfiring := h (n + 9) (by omega)
    rw [(uploadStates_add n).1] at hfiring
    cases hfiring
  finishes n x hx := by
    have honly : ∀ n < 9, ∀ x ∈ (uploadStates n).running, n ≤ 5 ∧ x = 0 ∨ n ≤ 8 ∧ x = 1 := by decide +kernel
    by_cases hn : n < 9
    · obtain ⟨hle, rfl⟩ | ⟨hle, rfl⟩ := honly n hn x hx
      · exact ⟨5, hle, .succeeded, rfl⟩
      · exact ⟨8, hle, .succeeded, rfl⟩
    · obtain ⟨k, rfl⟩ := Nat.exists_eq_add_of_le' (not_lt.mp hn)
      rw [(uploadStates_add k).2] at hx
      cases hx
  settles := by
    refine ⟨9, fun m hm id expiry relative => ?_⟩
    obtain ⟨k, rfl⟩ := Nat.exists_eq_add_of_le' hm
    simp [uploadActions]

/-- At 5 the first item is being uploaded and the second is in the queue, behind its expiry and without a timer. -/
theorem queue_attended_upload : Attended uploadOptions (uploadRun.state 5) ∧
    (uploadRun.state 5).running = [0] ∧ (uploadRun.state 5).clock.timer = none ∧ ∃ m ≥ 5, 1 ∈ (uploadRun.state m).heap ∧
      (Started (uploadRun.action m) (uploadRun.state (m + 1)) 1 ∨
        Moved (uploadRun.state m) (uploadRun.action m) (uploadRun.state (m + 1)) 1) := by
  have hattended := queue_attended uploadOptions (2 ^ 63 + 1) (by decide)
  refine ⟨hattended.1 _ (uploadRun.reachable 5), by decide +kernel, by decide +kernel, ?_⟩
  exact hattended.2 (by decide) (by decide) (by decide) uploadRun 5 1 (by decide +kernel)

/-- The upload of `a` succeeds while a `Rename` of it to `b` waits for the cancellation. `Rename` then puts the item on
the heap again and waits for the upload of the other item `b`: the timer is off, and there is room for three more
uploads. -/
theorem rename_unattended :
    let o : Options := ⟨0, 4, by decide, by decide⟩
    ∃ s, [Action.add 0 [97] true, .add 0 [98] true, .fire, .processItems, .rename 1 [98] [1, 2], .finish 0 .succeeded,
      .resume (.rename 1 0 [98], 1) [2]].foldlM (next o) (new (2 ^ 63 + 1)) = some s ∧ ¬Attended o s := by
  intro o
  have hview : (([Action.add 0 [97] true, .add 0 [98] true, .fire, .processItems, .rename 1 [98] [1, 2],
      .finish 0 .succeeded, .resume (.rename 1 0 [98], 1) [2]].foldlM (next o) (new (2 ^ 63 + 1))).map
      fun s => (s.peekItem, s.clock.timer, s.clock.firing, s.uploads)) = some (some 0, none, 0, 1) := by decide +kernel
  obtain ⟨s, hs, hs'⟩ := Option.map_eq_some_iff.mp hview
  simp only [Prod.mk.injEq] at hs'
  obtain ⟨hpeek, htimer, hfiring, huploads⟩ := hs'
  refine ⟨s, hs, fun hattended => ?_⟩
  rcases hattended 0 hpeek with ⟨due, hdue, -⟩ | hpos | hfull
  · rw [htimer] at hdue
    cases hdue
  · exact absurd hfiring hpos.ne'
  · rw [huploads] at hfull
    exact absurd hfull (by decide)

end Examples

end ZClone.WriteBack
