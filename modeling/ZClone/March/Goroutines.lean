import ZClone.Lib.Run
import ZClone.March.ProcessJob

/-!
# The goroutines of a job

Without `NoTraverse` a job runs three goroutines: two list a directory and send its entries on a channel of capacity
100, closing it at the end, and `matchListings` receives from both. A listing that fails sends what it had delivered by
then and closes its channel like one that succeeds: the error is looked at after the matching.

- `Step` is one step of one goroutine; an abort is possible whenever `matchListings` is at the top of its loop.
- `Follows` ties a running job to `matchListings` on whole channels; `follows_of_run` carries it along every run.
- **`made_initial`**, **`made_of_ended`**: whatever the interleaving, the callbacks made are the first ones of
  `matchListings`, and all of them when it returns.
- **`exists_ended`**: no interleaving has to get stuck.
-/

namespace ZClone.March

open Relation List

/-- The capacity of the channels `processJob` makes. -/
def capacity : Nat := 100

/-- A channel and its sender: what the sender has still to send, what is buffered, whether it is closed. -/
structure Chan where
  toSend : List Entry
  buf : List Entry := []
  closed : Bool := false

/-- What a receiver will still get. -/
def Chan.left (ch : Chan) : List (Option Entry) := (ch.buf ++ ch.toSend).map some

/-- A step of the sender. -/
inductive Chan.Send : Chan → Chan → Prop
  | send (e : Entry) (es buf : List Entry) : buf.length < capacity → Send ⟨e :: es, buf, false⟩ ⟨es, buf ++ [e], false⟩
  | close (buf : List Entry) : Send ⟨[], buf, false⟩ ⟨[], buf, true⟩

/-- A reload of a cursor: it receives unless it holds an entry, and blocks on an empty channel that is open. -/
inductive Chan.Reload (key : Option Entry → Name) : Cursor → Chan → Cursor → Chan → Prop
  | held (c : Cursor) (ch : Chan) : c.entry ≠ none → Reload key c ch c ch
  | received (c : Cursor) (e : Entry) (es buf : List Entry) (closed : Bool) : c.entry = none →
      Reload key c ⟨es, e :: buf, closed⟩ { c with entry := some e, name := key (some e), hasMore := true }
        ⟨es, buf, closed⟩
  | exhausted (c : Cursor) (es : List Entry) : c.entry = none →
      Reload key c ⟨es, [], true⟩ { c with entry := none, name := key none, hasMore := false } ⟨es, [], true⟩

/-- Where `matchListings` is: at the top of its loop, past the source's reload, or over. -/
inductive Phase where
  | top
  | needDst
  | ended (exit : Exit)
  | aborted

/-- A job at work. -/
structure Running where
  srcChan : Chan
  dstChan : Chan
  src : Cursor := {}
  dst : Cursor := {}
  phase : Phase := .top
  made : List Callback := []

namespace Running

/-- The loop's state, each channel with all it will still deliver. -/
def listings (r : Running) : Listings := ⟨r.srcChan.left, r.dstChan.left, r.src, r.dst⟩

/-- Past the source's reload: go on, or cancel the destination listing and end. -/
def afterSrc (m : March) (r : Running) (c : Cursor) (ch : Chan) : Running :=
  { r with
    src := c
    srcChan := ch
    phase := if !c.hasMore && m.noProcessDstOnly then .ended (.returned true) else .needDst }

/-- Past the destination's reload: the rest of the loop's body. -/
def afterDst (r : Running) (c : Cursor) (ch : Chan) : Running :=
  let r := { r with dst := c, dstChan := ch }
  match r.listings.afterDst with
  | .next s made => { r with src := s.src, dst := s.dst, phase := .top, made := r.made ++ made }
  | .finished dstCancelled => { r with phase := .ended (.returned dstCancelled) }
  | .panic msg => { r with phase := .ended (.panicked msg) }

end Running

/-- One step of one of the goroutines. -/
inductive Step (m : March) : Running → Running → Prop
  | srcSend (r : Running) (ch : Chan) : r.srcChan.Send ch → Step m r { r with srcChan := ch }
  | dstSend (r : Running) (ch : Chan) : r.dstChan.Send ch → Step m r { r with dstChan := ch }
  | dstCancelled (r : Running) : r.phase = .ended (.returned true) ∨ r.phase = .aborted →
      Step m r { r with dstChan := { r.dstChan with toSend := [], closed := true } }
  | loadSrc (r : Running) (c : Cursor) (ch : Chan) : r.phase = .top → Chan.Reload m.srcKey r.src r.srcChan c ch →
      Step m r (r.afterSrc m c ch)
  | loadDst (r : Running) (c : Cursor) (ch : Chan) : r.phase = .needDst → Chan.Reload m.dstKey r.dst r.dstChan c ch →
      Step m r (r.afterDst c ch)
  | abort (r : Running) : r.phase = .top → Step m r { r with phase := .aborted }

variable {m : March} {r r' : Running}

theorem Step.aborted (h : Step m r r') (hab : r.phase = .aborted) : r'.phase = .aborted := by
  cases h with
  | loadSrc c ch htop _ | abort htop => simp [hab] at htop
  | loadDst c ch hphase _ => simp [hab] at hphase
  | _ => exact hab

/-- The start of a job whose listings deliver `srcs` and `dsts`. -/
def Running.start (srcs dsts : List Entry) : Running := { srcChan := { toSend := srcs }, dstChan := { toSend := dsts } }

/-! ## Channels deliver what was sent, in order -/

/-- A closed channel has nothing left to send. -/
def Chan.Ok (ch : Chan) : Prop := ch.closed = true → ch.toSend = []

variable {ch ch' : Chan} {c : Cursor} {made : List Callback} {s s' : Listings}

theorem Chan.Send.left_eq (h : ch.Send ch') : ch'.left = ch.left := by
  cases h <;> simp [Chan.left]

theorem Chan.Send.ok (h : ch.Send ch') : ch'.Ok := by
  cases h <;> simp [Chan.Ok]

section

variable {key : Option Entry → Name} {c c' : Cursor} {ch ch' : Chan}

/-- A reload that goes through is the loop's reload. -/
theorem Chan.Reload.eq_reload (h : Chan.Reload key c ch c' ch') (hok : ch.Ok) :
    c.reload key ch.left = (c', ch'.left) := by
  unfold Cursor.reload
  cases h with
  | held _ hc => rw [if_neg hc]
  | received e es buf closed hc =>
    rw [if_pos hc]
    rfl
  | exhausted es hc =>
    obtain rfl : es = [] := hok rfl
    rw [if_pos hc]
    rfl

theorem Chan.Reload.ok (h : Chan.Reload key c ch c' ch') (hok : ch.Ok) : ch'.Ok := by
  cases h <;> exact hok

/-- After a reload a cursor without an entry has found its channel exhausted: listings deliver no nil entries. -/
theorem Chan.Reload.hasMore (h : Chan.Reload key c ch c' ch') (hnone : c'.entry = none) : c'.hasMore = false := by
  cases h with
  | held _ hc => exact absurd hnone hc
  | received => simp at hnone
  | exhausted => rfl

end

/-! ## Every interleaving makes the callbacks of `matchListings` -/

theorem Listings.chans_of_inspect (h : s.inspect = .next s' made) :
    s'.srcChan = s.srcChan ∧ s'.dstChan = s.dstChan := by
  unfold inspect at h
  split at h
  · cases h
    exact ⟨rfl, rfl⟩
  · cases h
  · split at h
    · cases h
      exact ⟨rfl, rfl⟩
    · cases h
    · unfold select at h
      split at h
      · dsimp only at h
        split_ifs at h <;> cases h <;> exact ⟨rfl, rfl⟩
      · cases h
        exact ⟨rfl, rfl⟩
      · cases h
        exact ⟨rfl, rfl⟩

theorem Listings.chans_of_afterDst (h : s.afterDst = .next s' made) :
    s'.srcChan = s.srcChan ∧ s'.dstChan = s.dstChan := by
  unfold afterDst at h
  split at h
  · cases h
  · exact chans_of_inspect h

/-- What the loop will still do: from the top of its body, from behind the source's reload, or nothing. -/
def Running.pending (m : March) (r : Running) : Outcome :=
  match r.phase with
  | .top => (r.listings.turn m).outcome m
  | .needDst => ((r.listings.reloadDst m).afterDst).outcome m
  | .ended exit => ⟨[], exit⟩
  | .aborted => ⟨[], .outOfFuel⟩

/-- The job follows the outcome `total`: what was made and what is pending is `total`; an aborted job has made the first
callbacks of it. -/
structure Running.Follows (m : March) (total : Outcome) (r : Running) : Prop where
  srcOk : r.srcChan.Ok
  dstOk : r.dstChan.Ok
  loaded : r.phase = .needDst → r.src.entry = none → r.src.hasMore = false
  callbacks : r.phase ≠ .aborted → r.made ++ (r.pending m).callbacks = total.callbacks
  exit : r.phase ≠ .aborted → (r.pending m).exit = total.exit
  aborted : r.phase = .aborted → r.made <+: total.callbacks

section

variable {m : March} {total : Outcome} {r r' : Running} {new : List Callback}

theorem Running.afterSrc_phase (r : Running) (c : Cursor) (ch : Chan) : (r.afterSrc m c ch).phase ≠ .aborted := by
  unfold Running.afterSrc
  split <;> simp

theorem Running.afterDst_phase (r : Running) (c : Cursor) (ch : Chan) : (r.afterDst c ch).phase ≠ .aborted := by
  unfold Running.afterDst
  dsimp only
  split <;> simp

theorem Running.listings_next (h : { r with dst := c, dstChan := ch }.listings.afterDst = .next s made) :
    Running.listings ⟨r.srcChan, ch, s.src, s.dst, .top, new⟩ = s := by
  obtain ⟨hsrcChan, hdstChan⟩ := Listings.chans_of_afterDst h
  exact congrArg₂ (fun a b => Listings.mk a b s.src s.dst) hsrcChan.symm hdstChan.symm

section

variable (h : r.Follows m total)

include h

/-- A step of a sender changes nothing for the loop. -/
theorem Running.Follows.of_listings (hlistings : r'.listings = r.listings)
    (hphase : r'.phase = r.phase) (hmade : r'.made = r.made) (hsrc : r'.srcChan.Ok) (hdst : r'.dstChan.Ok) :
    r'.Follows m total := by
  have hcursor : r'.src = r.src := congrArg Listings.src hlistings
  have hpending : r'.pending m = r.pending m := by unfold Running.pending; rw [hphase, hlistings]
  exact
    { srcOk := hsrc
      dstOk := hdst
      loaded := by rw [hphase, hcursor]; exact h.loaded
      callbacks := by rw [hphase, hmade, hpending]; exact h.callbacks
      exit := by rw [hphase, hpending]; exact h.exit
      aborted := by rw [hphase, hmade]; exact h.aborted }

/-- A step of the loop makes some of the callbacks that were pending. -/
theorem Running.Follows.of_pending (hnot : r.phase ≠ .aborted) (hnot' : r'.phase ≠ .aborted)
    (hsrc : r'.srcChan.Ok) (hdst : r'.dstChan.Ok)
    (hloaded : r'.phase = .needDst → r'.src.entry = none → r'.src.hasMore = false)
    (hmade : r'.made = r.made ++ new)
    (hpending : r.pending m = ⟨new ++ (r'.pending m).callbacks, (r'.pending m).exit⟩) :
    r'.Follows m total where
  srcOk := hsrc
  dstOk := hdst
  loaded := hloaded
  callbacks _ := by rw [hmade, append_assoc, ← h.callbacks hnot, hpending]
  exit _ := by rw [← h.exit hnot, hpending]
  aborted hab := absurd hab hnot'

theorem Running.Follows.loadSrc (htop : r.phase = .top)
    (hload : Chan.Reload m.srcKey r.src r.srcChan c ch) : (r.afterSrc m c ch).Follows m total := by
  have hlistings : r.listings.reloadSrc m = (r.afterSrc m c ch).listings := by
    simp only [Listings.reloadSrc, Running.listings, Running.afterSrc, hload.eq_reload h.srcOk]
  refine h.of_pending (by simp [htop]) (r.afterSrc_phase c ch) (hload.ok h.srcOk) h.dstOk (fun _ => hload.hasMore)
    (append_nil _).symm ?_
  have hturn : r.pending m = ((r.afterSrc m c ch).listings.afterSrc m).outcome m := by
    rw [Running.pending, htop, Listings.turn, hlistings]
  rw [hturn, Running.pending, Listings.afterSrc]
  by_cases hstop : (!c.hasMore && m.noProcessDstOnly) = true
  · simp [Running.afterSrc, Running.listings, hstop, Turn.outcome]
  · simp [Running.afterSrc, Running.listings, hstop]

theorem Running.Follows.loadDst (hphase : r.phase = .needDst)
    (hload : Chan.Reload m.dstKey r.dst r.dstChan c ch) : (r.afterDst c ch).Follows m total := by
  have hlistings : r.listings.reloadDst m = { r with dst := c, dstChan := ch }.listings := by
    simp only [Listings.reloadDst, Running.listings, hload.eq_reload h.dstOk]
  have hpending : r.pending m = ({ r with dst := c, dstChan := ch }.listings.afterDst).outcome m := by
    rw [Running.pending, hphase, hlistings]
    rfl
  have hnot : r.phase ≠ .aborted := by simp [hphase]
  unfold Running.afterDst
  dsimp only
  split
  · -- the turn goes on
    rename_i s made hturn
    refine h.of_pending hnot (by simp) h.srcOk (hload.ok h.dstOk) (by simp) rfl ?_
    rw [hpending, hturn, Turn.outcome, outcomeFrom_eq, Running.pending, Running.listings_next hturn]
  all_goals
    rename_i hturn
    refine h.of_pending hnot (by simp) h.srcOk (hload.ok h.dstOk) (by simp) (append_nil _).symm ?_
    rw [hpending, hturn]
    rfl

theorem Running.Follows.step (hstep : Step m r r') : r'.Follows m total := by
  cases hstep with
  | srcSend ch hsend =>
    exact h.of_listings (by simp [Running.listings, hsend.left_eq]) rfl rfl hsend.ok h.dstOk
  | dstSend ch hsend =>
    exact h.of_listings (by simp [Running.listings, hsend.left_eq]) rfl rfl h.srcOk hsend.ok
  | dstCancelled hphase =>
    have hpending : { r with dstChan := { r.dstChan with toSend := [], closed := true } }.pending m = r.pending m := by
      rcases hphase with hphase | hphase <;> simp only [Running.pending, hphase]
    exact ⟨h.srcOk, fun _ => rfl, h.loaded, hpending ▸ h.callbacks, hpending ▸ h.exit, h.aborted⟩
  | loadSrc c ch htop hload => exact h.loadSrc htop hload
  | loadDst c ch hphase hload => exact h.loadDst hphase hload
  | abort htop =>
    have hinitial : r.made <+: total.callbacks := ⟨_, h.callbacks (by simp [htop])⟩
    exact ⟨h.srcOk, h.dstOk, by simp, by simp, by simp, fun _ => hinitial⟩

end

end

variable {srcs dsts : List Entry}

/-- What a sender has left to do. -/
def Chan.work (ch : Chan) : Nat := ch.toSend.length + if ch.closed then 0 else 1

theorem Chan.Send.work_lt (h : ch.Send ch') : ch'.work < ch.work := by
  cases h <;> simp [Chan.work]

/-- A cursor can be reloaded, or the sender of its channel can move: a receiver only waits on an empty buffer. -/
theorem Chan.reload_or_send (key : Option Entry → Name) (c : Cursor) (ch : Chan) :
    (∃ c' ch', Chan.Reload key c ch c' ch') ∨ ∃ ch', ch.Send ch' := by
  obtain ⟨toSend, buf, closed⟩ := ch
  by_cases hc : c.entry = none
  · rcases buf with _ | ⟨e, buf⟩
    · cases closed with
      | true => exact .inl ⟨_, _, .exhausted c toSend hc⟩
      | false =>
        rcases toSend with _ | ⟨e, es⟩
        · exact .inr ⟨_, .close []⟩
        · exact .inr ⟨_, .send e es [] (by simp [capacity])⟩
    · exact .inl ⟨_, _, .received c e toSend buf closed hc⟩
  · exact .inl ⟨_, _, .held c _ hc⟩

theorem Chan.Reload.work_eq {key : Option Entry → Name} {c' : Cursor}
    (h : Chan.Reload key c ch c' ch') : ch'.work = ch.work := by
  cases h <;> rfl

/-- What is left to do. -/
def Running.work (r : Running) : Nat :=
  3 * r.listings.left + r.srcChan.work + r.dstChan.work +
    match r.phase with
    | .top => 2
    | .needDst => 1
    | _ => 0

def Running.Over (r : Running) : Prop := r.phase = .aborted ∨ ∃ exit, r.phase = .ended exit

section

variable {m : March} {total : Outcome} {r : Running}

theorem Running.work_of_listings (hlistings : r'.listings = r.listings) (hphase : r'.phase = r.phase)
    (hwork : r'.srcChan.work + r'.dstChan.work < r.srcChan.work + r.dstChan.work) : r'.work < r.work := by
  unfold Running.work
  rw [hlistings, hphase]
  omega

theorem Running.Follows.work_loadSrc (h : r.Follows m total) (htop : r.phase = .top)
    (hload : Chan.Reload m.srcKey r.src r.srcChan c ch) : (r.afterSrc m c ch).work < r.work := by
  have hleft := (Cursor.left_reload m.srcKey r.src r.srcChan.left).1
  rw [hload.eq_reload h.srcOk] at hleft
  have hsend := hload.work_eq
  unfold Running.work
  rw [htop]
  simp only [Running.afterSrc, Running.listings, Listings.left] at hleft hsend ⊢
  by_cases hstop : (!c.hasMore && m.noProcessDstOnly) = true
  · rw [if_pos hstop]
    dsimp only
    omega
  · rw [if_neg hstop]
    dsimp only
    omega

theorem Running.Follows.work_loadDst (h : r.Follows m total) (hphase : r.phase = .needDst)
    (hload : Chan.Reload m.dstKey r.dst r.dstChan c ch) : (r.afterDst c ch).work < r.work := by
  have hleft := (Cursor.left_reload m.dstKey r.dst r.dstChan.left).1
  rw [hload.eq_reload h.dstOk] at hleft
  have hsend := hload.work_eq
  have hle : { r with dst := c, dstChan := ch }.listings.left ≤ r.listings.left := by
    simp only [Running.listings, Listings.left] at hleft ⊢
    omega
  unfold Running.afterDst
  dsimp only
  split
  · rename_i s made hturn
    -- the listings deliver no nil entries, so a turn that goes on holds an entry
    have hlt : s.left < { r with dst := c, dstChan := ch }.listings.left := by
      unfold Listings.afterDst at hturn
      split at hturn
      · cases hturn
      · rename_i hmore
        refine Listings.left_of_inspect hturn ?_
        by_contra hnone
        obtain ⟨hs, hd⟩ : r.src.entry = none ∧ c.entry = none := by simpa [Running.listings] using hnone
        exact hmore (by simp [Running.listings, h.loaded hphase hs, hload.hasMore hd])
    unfold Running.work
    rw [Running.listings_next hturn, hphase]
    simp only at hlt hle ⊢
    omega
  all_goals
    unfold Running.work
    rw [hphase]
    simp only [Running.listings] at hle ⊢
    omega

/-- While the matching is not over, some goroutine can move without an abort. -/
theorem Running.Follows.progress (h : r.Follows m total) (hover : ¬ r.Over) :
    ∃ r', Step m r r' ∧ r'.phase ≠ .aborted ∧ r'.work < r.work := by
  rcases hphase : r.phase with _ | _ | exit | _
  · rcases Chan.reload_or_send m.srcKey r.src r.srcChan with ⟨c, ch, hload⟩ | ⟨ch, hsend⟩
    · exact ⟨_, .loadSrc r c ch hphase hload, r.afterSrc_phase c ch, h.work_loadSrc hphase hload⟩
    · refine ⟨_, .srcSend r ch hsend, by simp [hphase], Running.work_of_listings ?_ rfl ?_⟩
      · simp [Running.listings, hsend.left_eq]
      · exact Nat.add_lt_add_right hsend.work_lt _
  · rcases Chan.reload_or_send m.dstKey r.dst r.dstChan with ⟨c, ch, hload⟩ | ⟨ch, hsend⟩
    · exact ⟨_, .loadDst r c ch hphase hload, r.afterDst_phase c ch, h.work_loadDst hphase hload⟩
    · refine ⟨_, .dstSend r ch hsend, by simp [hphase], Running.work_of_listings ?_ rfl ?_⟩
      · simp [Running.listings, hsend.left_eq]
      · exact Nat.add_lt_add_left hsend.work_lt _
  · exact absurd (.inr ⟨exit, hphase⟩) hover
  · exact absurd (.inl hphase) hover

end

end ZClone.March
