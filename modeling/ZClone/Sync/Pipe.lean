import Mathlib.Algebra.BigOperators.Group.List.Basic
import Mathlib.Algebra.Order.BigOperators.Group.List
import ZClone.Lib.Decimal
import ZClone.Lib.Int64
import ZClone.Lib.MinMaxHeap
import ZClone.Lib.Path

/-!
# The pipes between the workers of a sync (`fs/sync/pipe.go`)

A pipe is a queue under a lock and a channel with one token for each pair that is ready. `Put` adds a pair under the
lock and then sends a token; `Get` receives a token and then takes a pair under the lock.

- `newLess` reads the order of the queue; a queue with an order is a double ended heap. Only `Deheap` is needed of it,
  and `Deheap.minMax` is the one of the code.
- `next` takes the steps of all goroutines one at a time. A panic ends the run.
- `Inv`: the pairs put are those returned and those queued, and there is a token in the channel, a `Get` with a token or
  a `Put` without one for every pair queued. `pipe_run` draws the conclusions for runs.
-/

namespace ZClone.Sync

open List
open Paths (Text ascii)

/-- An `fs.ObjectPair`, as far as a pipe looks at it. -/
structure Pair where
  remote : Text
  size : Int
  modTime : Int
  /-- The source and the destination are the same object. -/
  same : Bool
  deriving DecidableEq

abbrev Less := Pair → Pair → Bool

/-! ## Orders -/

section Orders

inductive OrderErr where
  | patternRequiresGlob
  | emptyPatternGlob
  | badPatternGlob (glob : Text)
  | unknownComparison (part : Text)
  | badMixedFraction (part : Text)
  | unknownDirection (part : Text)
  | badOrderBy (orderBy : Text)
  deriving DecidableEq

/-- `strings.ToLower`, and the match function of a glob. -/
structure OrderEnv where
  toLower : Text → Text
  globPathToRegexp : Text → Option (Text → Bool)

def comparison (word : Text) : Option Less :=
  if word = ascii "name".toList then some fun a b => a.remote < b.remote
  else if word = ascii "size".toList then some fun a b => a.size < b.size
  else if word = ascii "modtime".toList then some fun a b => a.modTime < b.modTime
  else none

/-- The first glob that matches. -/
def rank (globs : List (Text → Bool)) (remote : Text) : Nat := globs.findIdx fun glob => glob remote

def lessByPattern (env : OrderEnv) (globs : List Text) : Except OrderErr Less := do
  if globs = [] then throw .patternRequiresGlob
  let globs ← globs.mapM fun glob => do
    if glob = [] then throw .emptyPatternGlob
    match env.globPathToRegexp glob with
    | some re => pure re
    | none => throw (.badPatternGlob glob)
  return fun a b =>
    if rank globs a.remote ≠ rank globs b.remote then rank globs a.remote < rank globs b.remote else a.remote < b.remote

/-- Whether the order is descending, and the fraction. -/
def direction (env : OrderEnv) : List Text → Except OrderErr (Bool × Int)
  | [] => .ok (false, -1)
  | part :: rest =>
    let word := env.toLower part
    if word = ascii "ascending".toList ∨ word = ascii "asc".toList then .ok (false, -1)
    else if word = ascii "descending".toList ∨ word = ascii "desc".toList then .ok (true, -1)
    else if word = ascii "mixed".toList then
      match rest with
      | [] => .ok (false, 50)
      | fraction :: _ =>
        match Decimal.atoi fraction with
        | some fraction => .ok (false, fraction)
        | none => .error (.badMixedFraction fraction)
    else .error (.unknownDirection part)

/-- A descending order is the negation, so that it holds of equal pairs. -/
def newLess (env : OrderEnv) (orderBy : Text) : Except OrderErr (Option Less × Int) :=
  if orderBy = [] then .ok (none, -1)
  else
    let parts := orderBy.splitOn 0x2C
    let word := env.toLower (parts.headD [])
    if word = ascii "pattern".toList then (lessByPattern env parts.tail).map fun less => (some less, -1)
    else
      match comparison word with
      | none => .error (.unknownComparison (parts.headD []))
      | some less =>
        match direction env parts.tail with
        | .error err => .error err
        | .ok (descending, fraction) =>
          if 0 ≤ fraction ∧ 3 < parts.length ∨ fraction < 0 ∧ 2 < parts.length then .error (.badOrderBy orderBy)
          else .ok (some (if descending then fun a b => !less a b else less), fraction)

end Orders

/-! ## Pipes -/

/-- A double ended heap, of which the order does not matter here: what is taken out of it is what was put in. -/
structure Deheap where
  push : Less → List Pair → Pair → List Pair
  pop : Less → List Pair → Option (Pair × List Pair)
  popMax : Less → List Pair → Option (Pair × List Pair)
  perm_push : ∀ less queue pair, (push less queue pair).Perm (pair :: queue)
  perm_pop : ∀ less queue, queue ≠ [] → ∃ pair rest, pop less queue = some (pair, rest) ∧ (pair :: rest).Perm queue
  perm_popMax : ∀ less queue, queue ≠ [] → ∃ pair rest, popMax less queue = some (pair, rest) ∧
    (pair :: rest).Perm queue

/-- The heap of the package `deheap`, whose `Push` does not panic. -/
def Deheap.minMax : Deheap where
  push less queue pair := (MinMaxHeap.push less queue pair).getD []
  pop := MinMaxHeap.pop
  popMax := MinMaxHeap.popMax
  perm_push less queue pair := by
    obtain ⟨queue', hpush, hperm⟩ := MinMaxHeap.push_returns less queue pair
    rwa [hpush, Option.getD_some]
  perm_pop less queue h := by
    obtain ⟨r, hpop, hperm⟩ := MinMaxHeap.pop_returns less h
    exact ⟨r.1, r.2, hpop, hperm⟩
  perm_popMax less queue h := by
    obtain ⟨r, hpop, hperm⟩ := MinMaxHeap.popMax_returns less h
    exact ⟨r.1, r.2, hpop, hperm⟩

structure Pipe where
  less : Option Less
  fraction : Int
  /-- The length of the channel's buffer. -/
  backlog : Nat

def newPipe (env : OrderEnv) (orderBy : Text) (maxBacklog : Int) : Except OrderErr Pipe :=
  let backlog := if maxBacklog < 0 then 2 ^ 63 - 1 else maxBacklog.toNat
  (newLess env orderBy).map fun r => { less := r.1, fraction := r.2, backlog }

inductive Panic where
  | popEmpty
  | sendOnClosed
  | closeOfClosed
  deriving DecidableEq

/-- A pipe in use, with the goroutines that are between the lock and the channel and the pairs put and returned so
far. -/
structure PipeState where
  queue : List Pair := []
  totalSize : Int := 0
  tokens : Nat := 0
  closed : Bool := false
  /-- `Put`s that have added their pair and not yet sent their token. -/
  putting : Nat := 0
  /-- `Get`s that have received a token and not yet taken a pair. -/
  getting : Nat := 0
  put : List Pair := []
  got : List Pair := []
  panic : Option Panic := none
  deriving DecidableEq

inductive PipeAction where
  | put (pair : Pair)
  | send
  /-- A `Put` sends its token to a waiting `Get`. -/
  | handOver
  | receive
  | getMax (fraction : Int)
  | close
  deriving DecidableEq

section Code

variable (dh : Deheap) (p : Pipe)

def enqueue (queue : List Pair) (pair : Pair) : List Pair :=
  match p.less with
  | none => queue ++ [pair]
  | some less => dh.push less queue pair

def dequeue (queue : List Pair) (fraction : Int) : Option (Pair × List Pair) :=
  match p.less with
  | none => queue.head?.map fun pair => (pair, queue.tail)
  | some less => if p.fraction < 0 ∨ fraction < p.fraction then dh.pop less queue else dh.popMax less queue

def Pair.isCounted (pair : Pair) : Bool := 0 < pair.size && !pair.same

/-- A step of one of the goroutines, if it can be taken. -/
def next (s : PipeState) (a : PipeAction) : Option PipeState :=
  if s.panic.isSome then none
  else
    match a with
    | .put pair =>
      some { s with
        queue := enqueue dh p s.queue pair
        totalSize := if pair.isCounted then int64 (s.totalSize + pair.size) else s.totalSize
        putting := s.putting + 1
        put := pair :: s.put }
    | .send =>
      if s.putting = 0 then none
      else if s.closed then some { s with panic := some .sendOnClosed }
      else if s.tokens < p.backlog then some { s with putting := s.putting - 1, tokens := s.tokens + 1 }
      else none
    | .handOver =>
      if s.putting = 0 ∨ s.closed then none else some { s with putting := s.putting - 1, getting := s.getting + 1 }
    | .receive => if s.tokens = 0 then none else some { s with tokens := s.tokens - 1, getting := s.getting + 1 }
    | .getMax fraction =>
      if s.getting = 0 then none
      else
        match dequeue dh p s.queue fraction with
        | none => some { s with panic := some .popEmpty }
        | some (pair, queue) =>
          let totalSize := if pair.isCounted then int64 (s.totalSize - pair.size) else s.totalSize
          some { s with
            queue
            totalSize := if totalSize < 0 then 0 else totalSize
            getting := s.getting - 1
            got := pair :: s.got }
    | .close => if s.closed then some { s with panic := some .closeOfClosed } else some { s with closed := true }

def PipeState.stats (s : PipeState) : Nat × Int := (s.queue.length, s.totalSize)

/-- `Get` returns `ok = false`. -/
def PipeState.atEnd (s : PipeState) : Bool := s.closed && s.tokens = 0

end Code

/-- Pairs of unknown or no size, or with the same source and destination, are not counted. -/
def Pair.counted (pair : Pair) : Int := if pair.isCounted then pair.size else 0

def total (pairs : List Pair) : Int := (pairs.map Pair.counted).sum

variable {dh : Deheap} {p : Pipe} {queue : List Pair} {s s' : PipeState}

theorem perm_enqueue (queue : List Pair) (pair : Pair) : (enqueue dh p queue pair).Perm (pair :: queue) := by
  unfold enqueue
  split
  · exact perm_append_singleton pair queue
  · exact dh.perm_push _ queue pair

theorem perm_dequeue (dh : Deheap) (p : Pipe) (h : queue ≠ []) (fraction : Int) :
    ∃ pair rest, dequeue dh p queue fraction = some (pair, rest) ∧ (pair :: rest).Perm queue := by
  unfold dequeue
  split
  · obtain ⟨pair, rest, rfl⟩ := exists_cons_of_ne_nil h
    exact ⟨pair, rest, rfl, .refl _⟩
  · split_ifs
    · exact dh.perm_pop _ queue h
    · exact dh.perm_popMax _ queue h

theorem counted_nonneg (pair : Pair) : 0 ≤ pair.counted := by
  rw [Pair.counted]
  split_ifs with h
  · simp only [Pair.isCounted, Bool.and_eq_true, decide_eq_true_eq] at h
    exact h.1.le
  · exact le_rfl

theorem total_nonneg (pairs : List Pair) : 0 ≤ total pairs := by
  refine sum_nonneg fun x hx => ?_
  obtain ⟨pair, -, rfl⟩ := mem_map.mp hx
  exact counted_nonneg pair

theorem total_cons (pair : Pair) (pairs : List Pair) : total (pair :: pairs) = pair.counted + total pairs := sum_cons

theorem total_append (as bs : List Pair) : total (as ++ bs) = total as + total bs := by
  rw [total, map_append, sum_append, total, total]

theorem total_perm {as bs : List Pair} (h : as.Perm bs) : total as = total bs := (h.map _).sum_eq

/-- The sum that is kept, for as long as it fits. -/
theorem int64_counted (pair : Pair) (t sign : Int) (hlow : -2 ^ 63 ≤ t + sign * pair.counted)
    (hhigh : t + sign * pair.counted < 2 ^ 63) :
    (if pair.isCounted then int64 (t + sign * pair.size) else t) = t + sign * pair.counted := by
  rw [Pair.counted] at *
  split_ifs at * with h
  · exact int64_of_lt hlow hhigh
  · simp

structure Inv (s : PipeState) : Prop where
  log : s.put.Perm (s.got ++ s.queue)
  count : s.queue.length = s.tokens + s.getting + s.putting
  size : total s.put < 2 ^ 63 → s.totalSize = total s.queue
  popped : s.panic ≠ some .popEmpty

theorem Inv.start : Inv {} := ⟨.refl _, rfl, fun _ => rfl, by simp⟩

theorem Inv.put (h : Inv s) (pair : Pair) :
    Inv { s with
      queue := enqueue dh p s.queue pair
      totalSize := if pair.isCounted then int64 (s.totalSize + pair.size) else s.totalSize
      putting := s.putting + 1
      put := pair :: s.put } where
  log := ((h.log.cons pair).trans perm_middle.symm).trans ((perm_enqueue s.queue pair).symm.append_left s.got)
  count := by
    have hcount := h.count
    dsimp only
    rw [(perm_enqueue s.queue pair).length_eq, length_cons]
    omega
  size hfits := by
    have hlog := total_perm h.log
    have hgot := total_nonneg s.got
    have hqueue := total_nonneg s.queue
    have hpair := counted_nonneg pair
    rw [total_append] at hlog
    rw [total_cons] at hfits
    have hsum := int64_counted pair s.totalSize 1
    rw [h.size (by omega)] at hsum ⊢
    simp only [one_mul] at hsum
    rw [hsum (by omega) (by omega), total_perm (perm_enqueue s.queue pair), total_cons, add_comm]
  popped := h.popped

theorem Inv.getMax (h : Inv s) (hgetting : s.getting ≠ 0) {pair : Pair} (hperm : (pair :: queue).Perm s.queue) :
    Inv { s with
      queue
      totalSize :=
        if (if pair.isCounted then int64 (s.totalSize - pair.size) else s.totalSize) < 0 then 0
        else if pair.isCounted then int64 (s.totalSize - pair.size) else s.totalSize
      getting := s.getting - 1
      got := pair :: s.got } where
  log := (h.log.trans (hperm.symm.append_left s.got)).trans perm_middle
  count := by
    have hcount := h.count
    rw [← hperm.length_eq, length_cons] at hcount
    dsimp only
    omega
  size hfits := by
    have hlog := total_perm h.log
    have hgot := total_nonneg s.got
    have hqueue := total_nonneg queue
    have htotal := total_perm hperm
    have hpair := counted_nonneg pair
    rw [total_append] at hlog
    rw [total_cons] at htotal
    have hdiff := int64_counted pair s.totalSize (-1)
    rw [h.size hfits] at hdiff ⊢
    simp only [neg_one_mul, ← sub_eq_add_neg] at hdiff
    dsimp only at hfits ⊢
    rw [hdiff (by omega) (by omega), if_neg (by omega)]
    omega
  popped := h.popped

theorem Inv.step (h : Inv s) {a : PipeAction} (hstep : next dh p s a = some s') : Inv s' := by
  unfold next at hstep
  by_cases hpanic : s.panic.isSome = true
  · rw [if_pos hpanic] at hstep
    cases hstep
  rw [if_neg hpanic] at hstep
  cases a with dsimp only at hstep
  | put pair =>
    cases hstep
    exact h.put pair
  | send =>
    split_ifs at hstep with hnone hclosed hroom
    · cases hstep
      exact ⟨h.log, h.count, h.size, by simp⟩
    · cases hstep
      exact ⟨h.log, by have := h.count; dsimp only; omega, h.size, h.popped⟩
  | handOver | receive =>
    split_ifs at hstep with hnone
    cases hstep
    exact ⟨h.log, by have := h.count; dsimp only; omega, h.size, h.popped⟩
  | getMax fraction =>
    split_ifs at hstep with hnone
    -- a `Get` with a token finds a pair
    have hne : s.queue ≠ [] := by
      intro hnil
      have hcount := h.count
      rw [hnil, length_nil] at hcount
      omega
    obtain ⟨pair, queue, hdequeue, hperm⟩ := perm_dequeue dh p hne fraction
    rw [hdequeue] at hstep
    cases hstep
    exact h.getMax hnone hperm
  | close =>
    split_ifs at hstep
    · cases hstep
      exact ⟨h.log, h.count, h.size, by simp⟩
    · cases hstep
      exact ⟨h.log, h.count, h.size, h.popped⟩

theorem Inv.foldlM {actions : List PipeAction} (h : Inv s) (hrun : actions.foldlM (next dh p) s = some s') :
    Inv s' := by
  induction actions generalizing s with
  | nil =>
    cases hrun
    exact h
  | cons a actions ih =>
    rw [foldlM_cons] at hrun
    obtain ⟨s₁, hfirst, hrest⟩ := Option.bind_eq_some_iff.mp hrun
    exact ih (h.step hfirst) hrest

/-- In every run: each pair put is returned once or still queued, none is taken out of an empty queue, and the
statistics are those of the queue. While no `Put` is on its way, every pair queued has a token or a `Get` that is about
to take one, so that a `Get` at the end leaves no more than other `Get`s already have tokens for. -/
theorem pipe_run (dh : Deheap) (env : OrderEnv) (orderBy : Text) (maxBacklog : Int) (p : Pipe)
    (actions : List PipeAction)
    (s : PipeState) (_hpipe : newPipe env orderBy maxBacklog = .ok p) (hrun : actions.foldlM (next dh p) {} = some s) :
    s.put.Perm (s.got ++ s.queue) ∧ s.panic ≠ some .popEmpty ∧
      (total s.put < 2 ^ 63 → s.stats = (s.queue.length, total s.queue)) ∧
      (s.putting = 0 → s.queue.length = s.tokens + s.getting ∧
        (s.atEnd = true → s.queue.length = s.getting ∧ (s.getting = 0 → s.put.Perm s.got))) := by
  have h := Inv.start.foldlM hrun
  refine ⟨h.log, h.popped, fun hfits => by rw [PipeState.stats, h.size hfits], fun hputting => ?_⟩
  have hcount : s.queue.length = s.tokens + s.getting := by rw [h.count, hputting, Nat.add_zero]
  refine ⟨hcount, fun hend => ?_⟩
  have htokens : s.tokens = 0 := by
    rw [PipeState.atEnd, Bool.and_eq_true, decide_eq_true_eq] at hend
    exact hend.2
  rw [htokens, Nat.zero_add] at hcount
  refine ⟨hcount, fun hgetting => ?_⟩
  have hnil : s.queue = [] := length_eq_zero_iff.mp (hcount.trans hgetting)
  rw [← append_nil s.got, ← hnil]
  exact h.log

/-- Three pairs go through a pipe with a mixed order, which is closed before the first is taken. -/
theorem pipe_run_closed :
    let a : Pair := ⟨[97], 2, 0, false⟩
    let b : Pair := ⟨[98], 1, 0, false⟩
    let c : Pair := ⟨[99], 3, 0, false⟩
    let p : Pipe := ⟨some fun a b => a.size < b.size, 50, 2⟩
    let actions : List PipeAction :=
      [.put a, .send, .put b, .send, .put c, .handOver, .close, .getMax 50, .receive, .getMax 0, .receive, .getMax 0]
    let s : PipeState := { closed := true, put := [c, b, a], got := [a, b, c] }
    actions.foldlM (next .minMax p) {} = some s ∧ s.atEnd = true ∧ s.put.Perm s.got := by
  intro a b c p actions s
  have hrun : actions.foldlM (next .minMax p) {} = some s := by decide +kernel
  obtain ⟨-, -, -, hend⟩ :=
    pipe_run .minMax ⟨id, fun _ => none⟩ (ascii "size,mixed".toList) 2 p actions s rfl hrun
  exact ⟨hrun, rfl, ((hend rfl).2 rfl).2 rfl⟩

/-- A `Put` that is overtaken by `Close` leaves its pair in the queue, with `Get` at the end; and a pair of one object
with itself is not counted. -/
theorem pipe_leaves :
    let a : Pair := ⟨[97], 1, 0, false⟩
    (∃ s, [PipeAction.put a, .close].foldlM (next .minMax ⟨none, -1, 1⟩) {} = some s ∧ s.atEnd = true ∧ s.queue = [a] ∧
        s.getting = 0) ∧
      ∃ s, [PipeAction.put { a with same := true }].foldlM (next .minMax ⟨none, -1, 1⟩) {} = some s ∧
        s.stats = (1, 0) :=
  ⟨⟨_, rfl, rfl, rfl, rfl⟩, ⟨_, rfl, rfl⟩⟩

end ZClone.Sync
