import ZClone.March.Basic
import ZClone.Lib.Merge

/-!
# The matching loop (`March.matchListings`)

The loop reads a source and a destination channel, holds at most one entry of each, and calls back for every entry or
pair of entries. A channel is the list of what it still delivers, nil entries included; reading past its end gives nil
and `false`, as reading a closed channel does.

- `turn` is one pass through the loop's body, `loop` the loop, with enough fuel by `loop_fuel`.
-/

namespace ZClone.March

/-- The calls `matchListings` makes; a `none` is a nil entry. -/
inductive Callback where
  | srcOnly (src : Entry)
  | dstOnly (dst : Option Entry)
  | matched (dst src : Entry)
  deriving DecidableEq

/-- The loop's variables for one side: `src, srcName, srcPrev, srcPrevName, srcHasMore` or the same of `dst`. -/
structure Cursor where
  entry : Option Entry := none
  name : Name := []
  prev : Option Entry := none
  prevName : Name := []
  hasMore : Bool := true
  deriving DecidableEq

namespace Cursor

/-- `srcDone` and `dstDone`. -/
def done (c : Cursor) : Cursor := { c with prevName := c.name, prev := c.entry, entry := none, name := [] }

/-- `src, srcHasMore = <-srcChan; srcName = m.srcKey(src)`, with what the channel delivers after it. -/
def receive (key : Option Entry → Name) (c : Cursor) : List (Option Entry) → Cursor × List (Option Entry)
  | [] => ({ c with entry := none, name := key none, hasMore := false }, [])
  | e :: chan => ({ c with entry := e, name := key e, hasMore := true }, chan)

def reload (key : Option Entry → Name) (c : Cursor) (chan : List (Option Entry)) : Cursor × List (Option Entry) :=
  if c.entry = none then c.receive key chan else (c, chan)

/-- The outcomes of the duplicate and order checks. -/
inductive Order where
  | fresh
  | duplicate
  | outOfOrder

def order (c : Cursor) : Order :=
  match c.entry, c.prev with
  | some e, some p =>
    if c.name = c.prevName ∧ dirEntryType p = dirEntryType e then .duplicate
    else if c.name < c.prevName then .outOfOrder
    else .fresh
  | _, _ => .fresh

end Cursor

/-- The state of the loop. -/
structure Listings where
  srcChan : List (Option Entry)
  dstChan : List (Option Entry)
  src : Cursor := {}
  dst : Cursor := {}

/-- What one pass through the loop's body ends in. -/
inductive Turn where
  | next (s : Listings) (made : List Callback)
  | finished (dstCancelled : Bool)
  | panic (msg : String)

namespace Listings

def srcDone (s : Listings) : Listings := { s with src := s.src.done }

def dstDone (s : Listings) : Listings := { s with dst := s.dst.done }

/-- The `switch` at the end of the body. -/
def select (s : Listings) : Turn :=
  match s.src.entry, s.dst.entry with
  | some src, some dst =>
    let srcType := (dirEntryType src).rank
    let dstType := (dirEntryType dst).rank
    if s.dst.name < s.src.name ∨ (s.src.name = s.dst.name ∧ dstType < srcType) then
      .next s.dstDone [.dstOnly (some dst)]
    else if s.src.name < s.dst.name ∨ (s.src.name = s.dst.name ∧ srcType < dstType) then
      .next s.srcDone [.srcOnly src]
    else .next s.dstDone.srcDone [.matched dst src]
  | none, dst => .next s.dstDone [.dstOnly dst]
  | some src, none => .next s.srcDone [.srcOnly src]

/-- The checks for duplicates and order, then the `switch`. -/
def inspect (s : Listings) : Turn :=
  match s.src.order with
  | .duplicate => .next s.srcDone []
  | .outOfOrder => .panic "Out of order listing in source"
  | .fresh =>
    match s.dst.order with
    | .duplicate => .next s.dstDone []
    | .outOfOrder => .panic "Out of order listing in destination"
    | .fresh => s.select

/-- The body once the destination was reloaded. -/
def afterDst (s : Listings) : Turn :=
  if !s.src.hasMore && !s.dst.hasMore then .finished false else s.inspect

section

variable (m : March) (s : Listings)

def reloadSrc : Listings :=
  { s with src := (s.src.reload m.srcKey s.srcChan).1, srcChan := (s.src.reload m.srcKey s.srcChan).2 }

def reloadDst : Listings :=
  { s with dst := (s.dst.reload m.dstKey s.dstChan).1, dstChan := (s.dst.reload m.dstKey s.dstChan).2 }

/-- The body once the source was reloaded: an early end cancels the destination listing. -/
def afterSrc : Turn :=
  if !s.src.hasMore && m.noProcessDstOnly then .finished true else (s.reloadDst m).afterDst

def turn : Turn := (s.reloadSrc m).afterSrc m

end

/-- Both sides reloaded. -/
abbrev reload (m : March) (s : Listings) : Listings := (s.reloadSrc m).reloadDst m

end Listings

/-- How the loop ended. -/
inductive Exit where
  | returned (dstCancelled : Bool)
  | panicked (msg : String)
  | outOfFuel
  deriving DecidableEq

structure Outcome where
  callbacks : List Callback
  exit : Exit
  deriving DecidableEq

def loop (m : March) : Nat → Listings → Outcome
  | 0, _ => ⟨[], .outOfFuel⟩
  | fuel + 1, s =>
    match s.turn m with
    | .next s' made => ⟨made ++ (loop m fuel s').callbacks, (loop m fuel s').exit⟩
    | .finished dstCancelled => ⟨[], .returned dstCancelled⟩
    | .panic msg => ⟨[], .panicked msg⟩

def matchListings (m : March) (srcChan dstChan : List (Option Entry)) : Outcome :=
  loop m (srcChan.length + dstChan.length + 1) { srcChan, dstChan }

/-! ## The loop ends -/

/-- The entries one side still has to deal with. -/
def Cursor.left (c : Cursor) (chan : List (Option Entry)) : Nat := c.entry.toList.length + chan.length

def Listings.left (s : Listings) : Nat := s.src.left s.srcChan + s.dst.left s.dstChan

/-- Reloading loses no entry but a nil one. -/
theorem Cursor.left_reload (key : Option Entry → Name) (c : Cursor) (chan : List (Option Entry)) :
    (c.reload key chan).1.left (c.reload key chan).2 ≤ c.left chan ∧
      ((c.reload key chan).1.entry = none → (c.reload key chan).1.hasMore = true →
        (c.reload key chan).1.left (c.reload key chan).2 < c.left chan) := by
  unfold reload left
  by_cases hc : c.entry = none
  · rw [if_pos hc]
    rcases chan with _ | ⟨_ | e, chan⟩ <;> simp [receive, hc]
    omega
  · simp [hc]

theorem Cursor.left_done_lt {c : Cursor} (chan : List (Option Entry)) (h : c.entry ≠ none) :
    c.done.left chan < c.left chan := by
  obtain ⟨e, he⟩ := Option.ne_none_iff_exists'.mp h
  simp [left, done, he]

theorem Cursor.entry_ne_none_of_duplicate {c : Cursor} (h : c.order = .duplicate) : c.entry ≠ none := by
  intro hc
  simp [order, hc] at h

theorem Cursor.left_done_le (c : Cursor) (chan : List (Option Entry)) : c.done.left chan ≤ c.left chan := by
  simp [left, done]

variable {made : List Callback}

/-- A pass that goes on has dealt with an entry it holds, unless it holds none. -/
theorem Listings.left_of_inspect {s s' : Listings} (h : s.inspect = .next s' made)
    (hheld : s.src.entry ≠ none ∨ s.dst.entry ≠ none) : s'.left < s.left := by
  have hsrc : s.src.entry ≠ none → s.srcDone.left < s.left := fun he => by
    have := Cursor.left_done_lt s.srcChan he
    simp only [Listings.left, srcDone]
    omega
  have hdst : s.dst.entry ≠ none → s.dstDone.left < s.left := fun he => by
    have := Cursor.left_done_lt s.dstChan he
    simp only [Listings.left, dstDone]
    omega
  have hboth : s.dst.entry ≠ none → s.dstDone.srcDone.left < s.left := fun he => by
    have hd := hdst he
    have := Cursor.left_done_le s.src s.srcChan
    simp only [Listings.left, dstDone, srcDone] at hd ⊢
    omega
  unfold inspect at h
  split at h
  · rename_i hdup
    cases h
    exact hsrc (Cursor.entry_ne_none_of_duplicate hdup)
  · cases h
  · split at h
    · rename_i hdup
      cases h
      exact hdst (Cursor.entry_ne_none_of_duplicate hdup)
    · cases h
    · unfold select at h
      split at h
      · rename_i src dst hs hd
        dsimp only at h
        split_ifs at h <;> cases h
        · exact hdst (by simp [hd])
        · exact hsrc (by simp [hs])
        · exact hboth (by simp [hd])
      · rename_i hs
        cases h
        exact hdst (by simpa [hs] using hheld)
      · rename_i hs hd
        cases h
        exact hsrc (by simp [hs])

theorem Listings.left_of_turn {m : March} {s s' : Listings} (h : s.turn m = .next s' made) : s'.left < s.left := by
  obtain ⟨hsrc, hsrcNil⟩ := Cursor.left_reload m.srcKey s.src s.srcChan
  obtain ⟨hdst, hdstNil⟩ := Cursor.left_reload m.dstKey s.dst s.dstChan
  unfold turn afterSrc at h
  split at h
  · cases h
  unfold afterDst at h
  split at h
  · cases h
  rename_i hmore
  by_cases hheld : (s.reload m).src.entry ≠ none ∨ (s.reload m).dst.entry ≠ none
  · have hlt := left_of_inspect h hheld
    simp only [left, reloadSrc, reloadDst] at hlt ⊢
    omega
  · -- nothing is held: one of the sides has just read a nil entry, and the switch calls back for the destination
    obtain ⟨hs, hd⟩ : (s.reload m).src.entry = none ∧
        (s.reload m).dst.entry = none := by simpa using hheld
    have hs' : s' = (s.reload m).dstDone := by
      simp only [inspect, Cursor.order, select, hs, hd] at h
      cases h
      rfl
    have hdone := Cursor.left_done_le (s.reload m).dst (s.reload m).dstChan
    have hor : (s.reloadSrc m).src.hasMore = true ∨ (s.reload m).dst.hasMore = true := by
      by_contra hno
      obtain ⟨hno₁, hno₂⟩ : (s.reloadSrc m).src.hasMore = false ∧ (s.reload m).dst.hasMore = false := by
        simpa using hno
      have hno₁ : (s.reload m).src.hasMore = false := hno₁
      exact hmore (by simp [hno₁, hno₂])
    subst hs'
    simp only [left, dstDone, reloadSrc, reloadDst] at hs hd hdone hor ⊢
    rcases hor with hm | hm
    · have := hsrcNil hs hm
      omega
    · have := hdstNil hd hm
      omega

/-- More fuel than entries left makes no difference. -/
theorem loop_fuel (m : March) : ∀ (fuel fuel' : Nat) (s : Listings), s.left < fuel → s.left < fuel' →
    loop m fuel s = loop m fuel' s
  | 0, _, _, h, _ => absurd h (Nat.not_lt_zero _)
  | _ + 1, 0, _, _, h => absurd h (Nat.not_lt_zero _)
  | fuel + 1, fuel' + 1, s, h, h' => by
    unfold loop
    split
    · rename_i s' made hturn
      have hlt := Listings.left_of_turn hturn
      rw [loop_fuel m fuel fuel' s' (by omega) (by omega)]
    · rfl
    · rfl

/-- What the loop does from a state on. -/
def outcomeFrom (m : March) (s : Listings) : Outcome := loop m (s.left + 1) s

/-- What the loop does after a turn. -/
def Turn.outcome (m : March) : Turn → Outcome
  | .next s made => ⟨made ++ (outcomeFrom m s).callbacks, (outcomeFrom m s).exit⟩
  | .finished dstCancelled => ⟨[], .returned dstCancelled⟩
  | .panic msg => ⟨[], .panicked msg⟩

theorem outcomeFrom_eq (m : March) (s : Listings) : outcomeFrom m s = (s.turn m).outcome m := by
  rw [outcomeFrom, loop]
  split
  · rename_i s' made hturn
    have hlt := Listings.left_of_turn hturn
    rw [hturn, Turn.outcome, outcomeFrom, loop_fuel m s.left (s'.left + 1) s' hlt (Nat.lt_succ_self _)]
  · rename_i hturn
    rw [hturn, Turn.outcome]
  · rename_i hturn
    rw [hturn, Turn.outcome]

end ZClone.March
