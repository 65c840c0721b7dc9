import ZClone.Lib.Run
import ZClone.Ranges.SliceFind

/-!
# Downloads into a cache file (`vfs/vfscache/downloaders/downloaders.go`)

What a goroutine does between taking and releasing the lock is one step. A send to a waiter is part of it, since its
receiver waits for nothing else. What the source, its readers and the other users of the item do is up to the actions.

- `ensureDownloader`, `dispatchWaiters` and `kickWaiters` are the functions of the package; `step` puts them together.
- `Inv.step`: a call has sent its result or waits, and nothing is sent for data that is missing, unless `Close` has no
  error to send.
- `results_of_run` says it of whole runs, `results_of_close` shows what `Close(nil)` does.
-/

namespace ZClone.Vfs.Downloaders

open Ranges Ranges.Slice Relation List

/-! ## The item -/

def clip (r : Range) (offset : Int) : Range :=
  if stop r ≤ offset then r
  else
    let size := int64 (r.size - int64 (stop r - offset))
    if size < 0 then ⟨0, 0⟩ else ⟨r.pos, size⟩

/-- The ranges of the cache file that are present, and its size. -/
structure Item where
  rs : List Range
  size : Int
  canonical : Canonical rs
  fits : ∀ r ∈ rs, Fits r
  size_nonneg : 0 ≤ size
  size_lt : size < 2 ^ 63

def Item.hasRange (item : Item) (r : Range) : Bool := present item.rs r

def Item.findMissing (item : Item) (r : Range) : Range := clip (Slice.findMissing item.rs r) item.size

/-! ## The code -/

/-- The source and the options. `noSpace` is `IsErrNoSpace`. -/
structure Setup (ε : Type) where
  srcSize : Int
  srcSize_lt : srcSize < 2 ^ 63
  bufferSize : Int
  readAhead : Int
  noSpace : ε → Bool

/-- Where the goroutine of a downloader is: it kicks the waiters behind a write, and when it has closed the downloader
and counted its error. -/
inductive Phase (ε : Type) where
  | reading
  | kicking
  | ended (n : Int) (err : Option ε)
  | counted
  | finished

/-- A downloader goes on when it has kicked the waiters, or is done. -/
def Phase.kicked {ε : Type} : Phase ε → Option (Phase ε)
  | .kicking => some .reading
  | .counted => some .finished
  | _ => none

structure Downloader (ε : Type) where
  start : Int
  offset : Int
  maxOffset : Int
  skipped : Int
  stop : Bool
  closed : Bool
  /-- There is a reader to close, -/
  input : Bool
  /-- and this is what its `Close` returns. -/
  closeErr : Option ε
  phase : Phase ε

structure Waiter where
  call : Nat
  r : Range

/-- A result, and the item when it was sent. -/
structure Sent (ε : Type) where
  call : Nat
  r : Range
  result : Option ε
  item : Item

/-- Where `Close` is: at the downloaders it has to stop, or behind `cancel`. At its end `calls` calls had been made. -/
inductive Closing (ε : Type) where
  | running
  | stopping (inErr : Option ε) (todo : List Nat) (err : Option ε)
  | cancelled (inErr err : Option ε)
  | closed (calls : Nat) (err : Option ε)

def Closing.todo {ε : Type} : Closing ε → List Nat
  | .stopping _ todo _ => todo
  | _ => []

/-- `Downloaders`. All downloaders that were made are in `all`, and `dls` are those it knows. The calls of `Download`
are counted, and `closeFailed` is set if one of the downloaders that `Close` stops could not be closed. -/
structure State (ε : Type) where
  item : Item
  all : List (Downloader ε)
  dls : List Nat
  waiters : List Waiter
  errorCount : Nat
  lastErr : Option ε
  closing : Closing ε
  calls : Nat
  sent : List (Sent ε)
  closeFailed : Bool

def start {ε : Type} (item : Item) : State ε := ⟨item, [], [], [], 0, none, .running, 0, [], false⟩

section

variable {ε : Type} (p : Setup ε)

def countErrors (n : Int) (err : Option ε) (s : State ε) : State ε :=
  match err with
  | some e => { s with errorCount := s.errorCount + 1, lastErr := some e }
  | none => if n ≠ 0 ∧ s.errorCount ≠ 0 then { s with errorCount := 0, lastErr := none } else s

def removeClosed (s : State ε) : State ε := { s with dls := s.dls.filter fun d => (s.all[d]?).any (!·.closed) }

def setRange (d : Nat) (r : Range) (s : State ε) : State ε :=
  { s with all := s.all.modify d fun dl =>
    { dl with maxOffset := if dl.maxOffset < stop r then stop r else dl.maxOffset } }

/-- `newDownloader`: the reader can not be opened, or it is and will return `closeErr` when it is closed. -/
def newDownloader (r : Range) (opened : Except ε (Option ε)) (s : State ε) : State ε × Option ε :=
  match opened with
  | .error e => (s, some e)
  | .ok closeErr =>
    ({ s with
        all := s.all ++ [⟨r.pos, r.pos, stop r, 0, false, false, true, closeErr, .reading⟩]
        dls := s.dls ++ [s.all.length] }, none)

def minWindow : Int := 1024 * 1024

/-- The end of `ensureDownloader`: go on with a downloader that is near, or start one. -/
def reuseOrStart (r : Range) (window : Int) (startNew : Bool) (opened : Except ε (Option ε)) (s : State ε) :
    State ε × Option ε :=
  match s.dls.find? fun d => (s.all[d]?).any fun dl => dl.start ≤ r.pos && r.pos < dl.offset + window with
  | some d => (setRange d r s, none)
  | none =>
    if !startNew || r.size = 0 then (s, none)
    else
      match newDownloader r opened s with
      | (s, some e) => (countErrors 0 (some e) s, some e)
      | (s, none) => (s, none)

def ensureDownloader (r : Range) (opened : Except ε (Option ε)) (s : State ε) : State ε × Option ε :=
  let r := if 0 < p.readAhead then ⟨r.pos, int64 (r.size + p.readAhead)⟩ else r
  let r := s.item.findMissing r
  let rWindow : Range := ⟨r.pos, int64 (r.size + p.bufferSize)⟩
  let rWindowClipped := s.item.findMissing rWindow
  let startNew := !(r.isEmpty && rWindowClipped.isEmpty)
  -- nothing to write for the moment, but the downloader may go on with the window
  let r := if r.isEmpty then ⟨if rWindowClipped.isEmpty then stop rWindow else rWindowClipped.pos, 0⟩ else r
  reuseOrStart r (if p.bufferSize < minWindow then minWindow else p.bufferSize) startNew opened (removeClosed s)

/-- The data has arrived, or there is nothing left to download. -/
def Setup.ready (item : Item) (r : Range) : Bool := item.hasRange (clip r p.srcSize) || (item.findMissing r).isEmpty

def State.send (s : State ε) (result : Option ε) (w : Waiter) : Sent ε := ⟨w.call, w.r, result, s.item⟩

def dispatchWaiters (s : State ε) : State ε :=
  { s with
    waiters := s.waiters.filter fun w => !p.ready s.item w.r
    sent := s.sent ++ (s.waiters.filter fun w => p.ready s.item w.r).map (s.send none) }

def closeWaiters (err : Option ε) (s : State ε) : State ε :=
  { s with waiters := [], sent := s.sent ++ s.waiters.map (s.send err) }

def maxErrorCount : Nat := 10

def kickWaiters (opened : Nat → Except ε (Option ε)) (s : State ε) : State ε :=
  let s := dispatchWaiters p s
  if s.waiters = [] then s
  else
    let s := s.waiters.zipIdx.foldl (fun s w => (ensureDownloader p w.1.r (opened w.2) s).1) s
    if s.lastErr.any p.noSpace then closeWaiters s.lastErr s
    else if maxErrorCount < s.errorCount then closeWaiters s.lastErr s
    else s

def Downloader.close (dl : Downloader ε) : Downloader ε × Option ε :=
  ({ dl with closed := true, input := false }, if dl.input then dl.closeErr else none)

def maxSkipBytes : Int := 1024 * 1024

/-- `downloader.Write`, behind the write to the item. -/
def Downloader.write (dl : Downloader ε) (n skipped : Int) : Downloader ε :=
  let total := if skipped = n then dl.skipped + skipped else 0
  { dl with
    offset := dl.offset + n, skipped := total, stop := dl.stop || maxSkipBytes < total, phase :=
      if 0 < n then .kicking else .reading }

end

inductive Action (ε : Type) where
  | download (r : Range) (opened : Except ε (Option ε))
  | ensure (r : Range) (opened : Except ε (Option ε))
  /-- The background kicker. -/
  | tick (opened : Nat → Except ε (Option ε))
  /-- `Write` of a downloader, up to the kick. -/
  | write (d : Nat) (n skipped : Int) (item : Item)
  | kick (d : Nat) (opened : Nat → Except ε (Option ε))
  | timeout (d : Nat)
  /-- `download` returns and the downloader is closed. -/
  | finish (d : Nat) (n : Int) (err : Option ε)
  | count (d : Nat)
  /-- Another user of the item. -/
  | change (item : Item)
  | close (inErr : Option ε)
  /-- The two parts of `stopAndClose`. -/
  | stop
  | closeStopped
  | cancel
  | closeWaiters

section

variable {ε : Type} (p : Setup ε) {r : Range}

def step (s : State ε) : Action ε → Option (State ε)
  | .download r opened =>
    match ensureDownloader p r opened s with
    | (s, some e) => some { s with calls := s.calls + 1, sent := s.sent ++ [s.send (some e) ⟨s.calls, r⟩] }
    | (s, none) => some { s with calls := s.calls + 1, waiters := s.waiters ++ [⟨s.calls, r⟩] }
  | .ensure r opened => some (ensureDownloader p r opened s).1
  | .tick opened =>
    match s.closing with
    | .closed _ _ => none
    | _ => some (kickWaiters p opened s)
  | .write d n skipped item => do
    let dl ← s.all[d]?
    match dl.phase with
    | .reading =>
      -- it waits at the end of its range until it is told to go on or to quit
      if dl.offset < dl.maxOffset ∨ dl.stop = true then some { s with item, all := s.all.set d (dl.write n skipped) }
        else none
    | _ => none
  | .kick d opened => do
    let dl ← s.all[d]?
    let next ← dl.phase.kicked
    let s := kickWaiters p opened s
    some { s with all := s.all.modify d fun dl => { dl with phase := next } }
  | .timeout d => do
    let dl ← s.all[d]?
    match dl.phase with
    | .reading => if dl.maxOffset ≤ dl.offset then some { s with all := s.all.set d { dl with stop := true } } else none
    | _ => none
  | .finish d n err => do
    let dl ← s.all[d]?
    match dl.phase with
    | .reading => some { s with
        all := s.all.set d { dl.close.1 with phase := .ended n err }
        closeFailed := s.closeFailed || dl.close.2.isSome && s.closing.todo.contains d }
    | _ => none
  | .count d => do
    let dl ← s.all[d]?
    match dl.phase with
    | .ended n err =>
      let s := countErrors n err s
      some { s with all := s.all.set d { dl with phase := .counted } }
    | _ => none
  | .change item => some { s with item }
  | .close inErr =>
    match s.closing with
    | .running =>
      let s := removeClosed s
      some { s with closing := .stopping inErr s.dls none }
    | _ => none
  | .stop =>
    match s.closing with
    | .stopping _ (d :: _) _ => some { s with all := s.all.modify d fun dl => { dl with stop := true } }
    | _ => none
  | .closeStopped =>
    match s.closing with
    | .stopping inErr (d :: todo) err => do
      let dl ← s.all[d]?
      match dl.stop, dl.phase with
      | true, .finished =>
        let closeErr := dl.close.2
        some { s with
          all := s.all.set d dl.close.1
          closing := .stopping inErr todo (if closeErr.isSome ∧ err.isSome then closeErr else err)
          closeFailed := s.closeFailed || closeErr.isSome }
      | _, _ => none
    | _ => none
  | .cancel =>
    match s.closing with
    | .stopping inErr [] err => some { s with closing := .cancelled inErr err }
    | _ => none
  | .closeWaiters =>
    match s.closing with
    | .cancelled inErr err =>
      let s := closeWaiters inErr (dispatchWaiters p { s with dls := [] })
      some { s with closing := .closed s.calls err }
    | _ => none

/-! ## The bytes of a range -/

/-- Every byte of the range up to the size of the source is present, or every byte up to the size of the file. -/
def Setup.Arrived (item : Item) (r : Range) : Prop :=
  (∀ q, r.Has q → q < p.srcSize → Covers item.rs q) ∨ ∀ q, r.Has q → q < item.size → Covers item.rs q

theorem clip_eq {offset : Int} (hpos : 0 ≤ r.pos) (hsize : 0 ≤ r.size) (hstop : r.stop < 2 ^ 63)
    (hle : r.pos ≤ offset) :
    clip r offset = ⟨r.pos, min r.stop offset - r.pos⟩ := by
  obtain ⟨pos, size⟩ := r
  simp only [Range.stop] at *
  have hend : stop ⟨pos, size⟩ = pos + size := int64_of_lt (by simp only; omega) hstop
  rw [clip, hend]
  split_ifs with hshort
  · rw [min_eq_left hshort, add_sub_cancel_left]
  · have hover : int64 (pos + size - offset) = pos + size - offset := int64_of_lt (by omega) (by omega)
    have hleft : int64 (size - (pos + size - offset)) = offset - pos := by
      rw [int64_of_lt (by omega) (by omega)]
      omega
    simp only [hover, hleft]
    rw [min_eq_right (by omega), if_neg (by omega)]

theorem Setup.arrived_of_ready {item : Item} (hpos : 0 ≤ r.pos) (hstop : r.stop < 2 ^ 63) (h : p.ready item r = true) :
    p.Arrived item r := by
  have hclip : ∀ {r : Range} {offset q : Int}, 0 ≤ r.pos → r.stop < 2 ^ 63 → r.Has q → q < offset →
      clip r offset = ⟨r.pos, min r.stop offset - r.pos⟩ := by
    intro r offset q hpos hstop hq hlt
    have hsize : r.pos < r.stop := lt_of_le_of_lt hq.1 hq.2
    exact clip_eq hpos (by simp only [Range.stop] at hsize; omega) hstop (hq.1.trans hlt.le)
  rcases Bool.or_eq_true_iff.mp h with hpresent | hmissing
  · refine .inl fun q hq hlt => ?_
    have hsize := p.srcSize_lt
    have hin : (clip r p.srcSize).Has q := by
      rw [hclip hpos hstop hq hlt]
      refine ⟨hq.1, ?_⟩
      rw [Range.stop, add_sub_cancel]
      exact lt_min hq.2 hlt
    have hfits : Fits (clip r p.srcSize) := by
      rw [hclip hpos hstop hq hlt]
      have hmin := min_le_left r.stop p.srcSize
      exact ⟨by simp only; omega, by simp only; omega, by simp only [Range.stop]; omega⟩
    obtain hempty | hall := (present_iff item.canonical item.fits hfits).mp hpresent
    · exact absurd hin (not_has_of_isEmpty hempty q)
    · exact hall q hin
  · refine .inr fun q hq hlt => ?_
    have hfits : Fits r := by
      simp only [Range.stop] at hstop
      exact ⟨by omega, by omega, hstop⟩
    obtain ⟨⟨hstop', hpos'⟩, hcovers, -⟩ := findMissing_ok item.canonical item.fits hfits
    by_contra hnot
    -- the byte is in what is missing, and that is not empty
    have hle : (Slice.findMissing item.rs r).pos ≤ q := not_lt.mp fun hlt => hnot (hcovers q hq.1 hlt)
    have hin : (Slice.findMissing item.rs r).Has q := ⟨hle, hstop' ▸ hq.2⟩
    rw [Item.findMissing, hclip (hpos.trans hpos') (hstop' ▸ hstop) hin hlt, Range.isEmpty,
      decide_eq_true_eq] at hmissing
    have hmin : q < min (Slice.findMissing item.rs r).stop item.size := lt_min hin.2 hlt
    simp only at hmissing
    omega

/-! ## One step -/

/-- What the downloaders do among themselves. -/
structure Same (s s' : State ε) : Prop where
  waiters : s'.waiters = s.waiters
  calls : s'.calls = s.calls
  sent : s'.sent = s.sent
  closing : s'.closing = s.closing
  closeFailed : s'.closeFailed = s.closeFailed
  errors : (s.errorCount ≠ 0 → s.lastErr ≠ none) → s'.errorCount ≠ 0 → s'.lastErr ≠ none

theorem Same.refl (s : State ε) : Same s s := ⟨rfl, rfl, rfl, rfl, rfl, id⟩

theorem Same.trans {s s' s'' : State ε} (h : Same s s') (h' : Same s' s'') : Same s s'' :=
  ⟨h'.waiters.trans h.waiters, h'.calls.trans h.calls, h'.sent.trans h.sent, h'.closing.trans h.closing,
    h'.closeFailed.trans h.closeFailed, fun herr => h'.errors (h.errors herr)⟩

theorem same_countErrors (n : Int) (err : Option ε) (s : State ε) : Same s (countErrors n err s) := by
  cases err with
  | some e => exact ⟨rfl, rfl, rfl, rfl, rfl, fun _ _ => Option.some_ne_none e⟩
  | none =>
    rw [countErrors]
    split_ifs
    · exact ⟨rfl, rfl, rfl, rfl, rfl, fun _ h => absurd rfl h⟩
    · exact .refl s

theorem same_reuseOrStart (r : Range) (window : Int) (startNew : Bool) (opened : Except ε (Option ε)) (s : State ε) :
    Same s (reuseOrStart r window startNew opened s).1 := by
  rw [reuseOrStart]
  split
  · exact ⟨rfl, rfl, rfl, rfl, rfl, id⟩
  · split_ifs
    · exact .refl s
    · cases opened with
      | error e => exact same_countErrors 0 (some e) s
      | ok closeErr => exact ⟨rfl, rfl, rfl, rfl, rfl, id⟩

theorem same_ensureDownloader (r : Range) (opened : Except ε (Option ε)) (s : State ε) :
    Same s (ensureDownloader p r opened s).1 := by
  have hremove : Same s (removeClosed s) := ⟨rfl, rfl, rfl, rfl, rfl, id⟩
  exact hremove.trans (same_reuseOrStart _ _ _ opened _)

/-- A call has its result or waits, an error is known where one was counted, and nothing is sent for data that is
missing. -/
structure Inv (s : State ε) : Prop where
  calls : (s.sent.map (·.call) ++ s.waiters.map (·.call)).Perm (List.range s.calls)
  errors : s.errorCount ≠ 0 → s.lastErr ≠ none
  ready : ∀ e ∈ s.sent, e.result = none → p.ready e.item e.r = true
  closed : ∀ n err, s.closing = .closed n err → ∀ i < n, i ∈ s.sent.map (·.call)
  closes : s.closeFailed = false

variable {p} {s s' : State ε} {a : Action ε}

theorem Inv.same (h : Inv p s) (hs : Same s s') : Inv p s' where
  calls := by rw [hs.sent, hs.waiters, hs.calls]; exact h.calls
  errors := hs.errors h.errors
  ready := by rw [hs.sent]; exact h.ready
  closed := by rw [hs.closing, hs.sent]; exact h.closed
  closes := hs.closeFailed.trans h.closes

/-- Some of the waiters are sent a result. -/
theorem Inv.release (h : Inv p s) {released kept : List Waiter} (hperm : (released ++ kept).Perm s.waiters)
    {result : Option ε} (hready : result = none → ∀ w ∈ released, p.ready s.item w.r = true) :
    Inv p { s with waiters := kept, sent := s.sent ++ released.map (s.send result) } where
  calls := by
    have hcall : (released.map (s.send result)).map (·.call) = released.map (·.call) :=
      by simp [State.send, Function.comp_def]
    rw [map_append, hcall, append_assoc, ← map_append]
    exact ((hperm.map _).append_left _).trans h.calls
  errors := h.errors
  ready := by
    intro e he hresult
    rcases mem_append.mp he with he | he
    · exact h.ready e he hresult
    · obtain ⟨w, hw, rfl⟩ := mem_map.mp he
      exact hready hresult w hw
  closed := by
    intro n err hclosed i hi
    rw [map_append]
    exact mem_append_left _ (h.closed n err hclosed i hi)
  closes := h.closes

theorem Inv.dispatchWaiters (h : Inv p s) : Inv p (dispatchWaiters p s) :=
  h.release (filter_append_perm _ _) fun _ _ hw => (mem_filter.mp hw).2

theorem Inv.closeWaiters (h : Inv p s) {err : Option ε}
    (hready : err = none → ∀ w ∈ s.waiters, p.ready s.item w.r = true) :
    Inv p (closeWaiters err s) :=
  h.release (append_nil _ ▸ .refl _) hready

theorem Inv.kickWaiters (h : Inv p s) (opened : Nat → Except ε (Option ε)) : Inv p (kickWaiters p opened s) := by
  have hall : ∀ (ws : List (Waiter × Nat)) (s : State ε), Same s
      (ws.foldl (fun s w => (ensureDownloader p w.1.r (opened w.2) s).1) s) := by
    intro ws
    induction ws with
    | nil => exact .refl
    | cons w ws ih => exact fun s => (same_ensureDownloader p w.1.r (opened w.2) s).trans (ih _)
  have hsent := h.dispatchWaiters
  have hinv := hsent.same (hall (Downloaders.dispatchWaiters p s).waiters.zipIdx _)
  rw [Downloaders.kickWaiters]
  dsimp only
  generalize foldl _ _ (Downloaders.dispatchWaiters p s).waiters.zipIdx = t at hinv ⊢
  split_ifs with hnone hspace hmany
  · exact hsent
  · refine hinv.closeWaiters fun hnil => ?_
    rw [hnil] at hspace
    exact absurd hspace Bool.false_ne_true
  · exact hinv.closeWaiters fun hnil => absurd hnil (hinv.errors (Nat.ne_of_gt (Nat.zero_lt_of_lt hmany)))
  · exact hinv

/-- The readers of the downloaders that `Close` has to stop can be closed, and at its end it has an error to send or
there is nothing to wait for. -/
def Allowed (p : Setup ε) (s : State ε) (a : Action ε) : Prop :=
  (∀ d ∈ s.closing.todo, ∀ dl ∈ s.all[d]?, dl.closeErr = none) ∧
    (a = .closeWaiters → (∀ err, s.closing ≠ .cancelled none err) ∨ ∀ w ∈ s.waiters, p.ready s.item w.r = true)

theorem Inv.wait (h : Inv p s) (r : Range) :
    Inv p { s with calls := s.calls + 1, waiters := s.waiters ++ [⟨s.calls, r⟩] } where
  calls := by
    rw [map_append, ← append_assoc, range_succ]
    exact h.calls.append_right _
  errors := h.errors
  ready := h.ready
  closed := h.closed
  closes := h.closes

theorem Inv.moveTo (h : Inv p s) {closing : Closing ε} (hclosing : ∀ n err, closing ≠ .closed n err) :
    Inv p { s with closing } :=
  ⟨h.calls, h.errors, h.ready, fun n err heq => absurd heq (hclosing n err), h.closes⟩

theorem Downloader.close_none {dl : Downloader ε} (h : dl.closeErr = none) : dl.close.2 = none := by
  rw [Downloader.close, h, ite_self]

theorem Inv.step (h : Inv p s) (ha : Allowed p s a) (hstep : step p s a = some s') : Inv p s' := by
  obtain ⟨hcloses, hend⟩ := ha
  cases a with rw [Downloaders.step] at hstep
  | download r opened =>
    have hsame := h.same (same_ensureDownloader p r opened s)
    generalize ensureDownloader p r opened s = out at hsame hstep
    obtain ⟨s₁, _ | e⟩ := out
    · cases hstep
      exact hsame.wait r
    · cases hstep
      have hperm : ([(⟨s₁.calls, r⟩ : Waiter)] ++ s₁.waiters).Perm (s₁.waiters ++ [⟨s₁.calls, r⟩]) := perm_append_comm
      exact (hsame.wait r).release hperm fun hnone => absurd hnone (Option.some_ne_none e)
  | ensure r opened =>
    cases hstep
    exact h.same (same_ensureDownloader p r opened s)
  | tick opened =>
    split at hstep
    · cases hstep
    · cases hstep
      exact h.kickWaiters opened
  | write d n skipped item | timeout d =>
    obtain ⟨dl, -, hstep⟩ := Option.bind_eq_some_iff.mp hstep
    split at hstep
    · split_ifs at hstep
      cases hstep
      exact h.same ⟨rfl, rfl, rfl, rfl, rfl, id⟩
    · cases hstep
  | kick d opened =>
    obtain ⟨dl, -, hstep⟩ := Option.bind_eq_some_iff.mp hstep
    obtain ⟨next, -, hstep⟩ := Option.bind_eq_some_iff.mp hstep
    cases hstep
    exact (h.kickWaiters opened).same ⟨rfl, rfl, rfl, rfl, rfl, id⟩
  | finish d n err =>
    obtain ⟨dl, hdl, hstep⟩ := Option.bind_eq_some_iff.mp hstep
    split at hstep
    · cases hstep
      refine ⟨h.calls, h.errors, h.ready, h.closed, ?_⟩
      by_cases hd : d ∈ s.closing.todo
      · simp [h.closes, dl.close_none (hcloses d hd dl hdl)]
      · simp [h.closes, hd]
    · cases hstep
  | count d =>
    obtain ⟨dl, -, hstep⟩ := Option.bind_eq_some_iff.mp hstep
    split at hstep
    · cases hstep
      exact (h.same (same_countErrors _ _ s)).same ⟨rfl, rfl, rfl, rfl, rfl, id⟩
    · cases hstep
  | change item =>
    cases hstep
    exact h.same ⟨rfl, rfl, rfl, rfl, rfl, id⟩
  | close inErr =>
    split at hstep
    · cases hstep
      have hremove : Inv p (removeClosed s) := h.same ⟨rfl, rfl, rfl, rfl, rfl, id⟩
      exact hremove.moveTo (by simp)
    · cases hstep
  | stop =>
    split at hstep
    · cases hstep
      exact h.same ⟨rfl, rfl, rfl, rfl, rfl, id⟩
    · cases hstep
  | closeStopped =>
    split at hstep
    next inErr d todo err hclosing =>
      obtain ⟨dl, hdl, hstep⟩ := Option.bind_eq_some_iff.mp hstep
      have hnone := dl.close_none (hcloses d (by rw [hclosing]; exact mem_cons_self) dl hdl)
      split at hstep
      · cases hstep
        refine ⟨h.calls, h.errors, h.ready, by simp, ?_⟩
        simp [h.closes, hnone]
      · cases hstep
    next => cases hstep
  | cancel =>
    split at hstep
    · cases hstep
      exact h.moveTo (by simp)
    · cases hstep
  | closeWaiters =>
    split at hstep
    next inErr err hclosing =>
      have hnone : Same s { s with dls := [] } := ⟨rfl, rfl, rfl, rfl, rfl, id⟩
      have hall : Inv p (Downloaders.closeWaiters inErr (Downloaders.dispatchWaiters p { s with dls := [] })) := by
        refine (h.same hnone).dispatchWaiters.closeWaiters fun hnil w hw => ?_
        subst hnil
        exact (hend rfl).resolve_left (fun hnot => hnot err hclosing) w (mem_of_mem_filter hw)
      cases hstep
      refine ⟨hall.calls, hall.errors, hall.ready, fun n err' heq i hi => ?_, hall.closes⟩
      cases heq
      have hcalls := hall.calls.mem_iff.mpr (mem_range.mpr hi)
      exact (mem_append.mp hcalls).resolve_right not_mem_nil
    next => cases hstep

/-- In any interleaving of calls, kicks, writes, failures and one `Close`: a call is sent at most one result, by the end
of `Close` each call before it has one, and a result without an error is sent when the data is there. -/
theorem results_of_run (item : Item)
    (hrun : ReflTransGen (fun s s' => ∃ a, Allowed p s a ∧ step p s a = some s') (start item) s) :
    (s.sent.map (·.call)).Nodup ∧
      (∀ e ∈ s.sent, e.result = none → 0 ≤ e.r.pos → e.r.stop < 2 ^ 63 → p.Arrived e.item e.r) ∧
    ∀ n err, s.closing = .closed n err → (∀ i < n, i ∈ s.sent.map (·.call)) ∧ (s.closeFailed = true → err ≠ none) := by
  have hstart : Inv p (start item) :=
    ⟨.nil, fun h => absurd rfl h, fun _ h => absurd h not_mem_nil, by simp [start], rfl⟩
  have hinv : Inv p s := Run.invariant (fun s s' hinv hnext => hnext.elim fun a ha => hinv.step ha.1 ha.2) hrun hstart
  refine ⟨?_, fun e he hresult hpos hstop => p.arrived_of_ready hpos hstop (hinv.ready e he hresult),
    fun n err hclosed => ?_⟩
  · have hnodup := hinv.calls.nodup_iff.mpr nodup_range
    exact (nodup_append.mp hnodup).1
  · refine ⟨hinv.closed n err hclosed, fun hfailed => ?_⟩
    rw [hinv.closes] at hfailed
    cases hfailed

theorem allowed_of_running (h : s.closing = .running) : Allowed p s a := by
  simp [Allowed, h, Closing.todo]

end

/-- A source of one byte. -/
def oneByte : Setup Unit := ⟨1, by decide, 0, 0, fun _ => false⟩

def missing : Item := ⟨[], 1, canonical_nil, by simp, by decide, by decide⟩

def arrived : Item := ⟨[⟨0, 1⟩], 1, ⟨by simp, by simp⟩, by decide, by decide, by decide⟩

/-- The byte is downloaded and the call returns. -/
theorem results_of_run_oneByte : ∃ s : State Unit, s.sent.map (fun e => (e.call, e.result)) = [(0, none)] ∧
    ∀ e ∈ s.sent, e.result = none → 0 ≤ e.r.pos → e.r.stop < 2 ^ 63 → oneByte.Arrived e.item e.r := by
  have hrun : ∃ s, ReflTransGen (fun s s' => ∃ a, Allowed oneByte s a ∧ step oneByte s a = some s') (start missing) s ∧
      s.sent.map (fun e => (e.call, e.result)) = [(0, none)] := by
    refine ⟨_, .tail (.tail (.tail .refl ⟨.download ⟨0, 1⟩ (.ok none), allowed_of_running rfl, rfl⟩)
      ⟨.write 0 1 0 arrived, allowed_of_running rfl, rfl⟩) ⟨.kick 0 fun _ => .ok none, allowed_of_running rfl, rfl⟩,
        rfl⟩
  obtain ⟨s, hrun, hsent⟩ := hrun
  exact ⟨s, hsent, (results_of_run missing hrun).2.1⟩

/-- `Close(nil)` before the byte has arrived: the call returns without an error, and `Close` without the error of the
reader it closed. -/
theorem results_of_close :
    ([.download ⟨0, 1⟩ (.ok (some ())), .close none, .stop, .finish 0 0 none, .count 0, .kick 0 fun _ => .ok none,
      .closeStopped, .cancel, .closeWaiters].foldlM (step oneByte) (start missing)).map
        (fun s => (s.sent.map fun e => (e.call, e.r, e.result, e.item.rs), s.closing, s.closeFailed)) =
      some ([(0, ⟨0, 1⟩, none, [])], .closed 1 none, true) := rfl

end ZClone.Vfs.Downloaders
