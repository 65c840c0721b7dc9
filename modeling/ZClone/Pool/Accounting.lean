import Mathlib.Algebra.BigOperators.Group.List.Basic
import Mathlib.Algebra.GroupWithZero.Nat
import Mathlib.Data.List.Nodup
import ZClone.Lib.Run

/-!
# The pool of buffers (`lib/pool/pool.go`)

The steps are what the functions do while they hold the lock; `GetN` acquires memory before it takes the lock, and
starts again if an allocation fails. `accounting`: every buffer has one owner and the counters are right in every state.
The cache outgrows `poolSize` only if a `GetN` that fails has allocated more buffers than there is room for: it puts
them there.
-/

namespace ZClone.Pool

open List Relation

structure Config where
  bufferSize : Nat
  poolSize : Nat

/-- The pool and the memory it has taken from the limit; the buffers of the callers, how many buffers each `GetN` that
has memory for them wants, and the number of the next buffer that is allocated. -/
structure State where
  cache : List Nat := []
  minFill : Nat := 0
  inUse : Int := 0
  alloced : Int := 0
  taken : Int := 0
  held : List Nat := []
  obtaining : List Nat := []
  next : Nat := 0

namespace State

def updateMinFill (s : State) : State := { s with minFill := min s.minFill s.cache.length }

/-- `flush`; `none` is a panic. -/
def flush : Nat → State → Option State
  | 0, s => some { s with minFill := s.cache.length }
  | n + 1, s => if s.cache = [] then none else flush n { s with cache := s.cache.dropLast, alloced := s.alloced - 1 }

variable (c : Config) (s : State)

/-- One round of the loop of `GetN`, if `allocs` allocations succeed and then one fails. -/
def attempt (n allocs : Nat) : State :=
  let «have» := min s.cache.length n
  let want := n - «have»
  let rest := s.cache.take (s.cache.length - «have»)
  let new := range' s.next (min allocs want)
  let bufs := s.cache.drop (s.cache.length - «have») ++ new
  let s := { s with
    alloced := s.alloced + new.length, next := s.next + new.length, obtaining := s.obtaining.erase n }
  if allocs < want then { s with cache := rest ++ bufs, taken := s.taken - c.bufferSize * n }
  else updateMinFill { s with cache := rest, held := s.held ++ bufs, inUse := s.inUse + n }

/-- `_put`, of a buffer that the caller has. -/
def put (buf : Nat) : State :=
  let s := if s.cache.length < c.poolSize then { s with cache := s.cache ++ [buf] }
    else { s with alloced := s.alloced - 1 }
  { s with taken := s.taken - c.bufferSize, held := s.held.erase buf }

/-- The loop of `PutN`. -/
def putAll : List Nat → State → Option State
  | [], s => some s
  | buf :: bufs, s => if buf ∈ s.held then putAll bufs (s.put c buf) else none

end State

inductive Action
  | acquire (n : Nat)
  | attempt (n allocs : Nat)
  | putN (bufs : List Nat)
  | flush
  | flushAged

def step (c : Config) (s : State) : Action → Option State
  | .acquire n => some { s with taken := s.taken + c.bufferSize * n, obtaining := n :: s.obtaining }
  | .attempt n allocs => if n ∈ s.obtaining then some (s.attempt c n allocs) else none
  | .putN bufs => (s.putAll c bufs).map fun s => ({ s with inUse := s.inUse - bufs.length } : State).updateMinFill
  | .flush => s.flush s.cache.length
  | .flushAged => s.flush s.minFill

/-! ## What every step keeps -/

/-- The accounting, while a `PutN` has put back `back` buffers that it has not taken off `inUse` yet. -/
structure Inv (c : Config) (back : Nat) (s : State) : Prop where
  owned : ∀ b, s.cache.count b + s.held.count b ≤ if b < s.next then 1 else 0
  alloced_eq : s.alloced = s.held.length + s.cache.length
  taken_eq : s.taken = c.bufferSize * (s.held.length + s.obtaining.sum : Nat)
  inUse_eq : s.inUse = s.held.length + back
  minFill_le : s.minFill ≤ s.cache.length

variable {c : Config} {s s' : State} {b n allocs back : Nat}

/-- There is a buffer to free as long as there is one in the cache. -/
theorem flush_eq : ∀ {n : Nat} {s : State}, n ≤ s.cache.length → s.flush n = some { s with
    cache := s.cache.take (s.cache.length - n), alloced := s.alloced - n, minFill := s.cache.length - n }
  | 0, s, _ => by simp [State.flush]
  | n + 1, s, hn => by
    rw [State.flush, if_neg fun hnil => by simp [hnil] at hn, flush_eq (by rw [length_dropLast]; omega)]
    simp only [dropLast_eq_take, length_take, take_take, Option.some.injEq, State.mk.injEq, true_and, and_true]
    refine ⟨congrArg (take · _) ?_, ?_, ?_⟩ <;> omega

theorem Inv.flush (h : Inv c 0 s) (hn : n ≤ s.cache.length) (hflush : s.flush n = some s') :
    Inv c 0 s' ∧ s'.cache.length ≤ s.cache.length := by
  cases (flush_eq hn).symm.trans hflush
  have hall := h.alloced_eq
  refine ⟨{ h with owned := fun b => ?_, alloced_eq := ?_, minFill_le := ?_ }, ?_⟩
  · exact Nat.le_trans (Nat.add_le_add_right ((take_sublist _ _).count_le b) _) (h.owned b)
  all_goals
    simp only [length_take]
    omega

theorem count_new (b next m : Nat) : (range' next m).count b = if next ≤ b ∧ b < next + m then 1 else 0 := by
  rw [List.Nodup.count nodup_range']
  simp only [mem_range'_1]

/-- A round that fails leaves what it has allocated in the cache. -/
theorem Inv.attempt (h : Inv c 0 s) (hn : n ∈ s.obtaining) : Inv c 0 (s.attempt c n allocs) ∧
    (s.attempt c n allocs).cache.length =
      if allocs < n - s.cache.length then s.cache.length + allocs else s.cache.length - n := by
  have hwant : n - min s.cache.length n = n - s.cache.length := by omega
  obtain ⟨howned, hall, htaken, huse, hmin⟩ := h
  rw [(perm_cons_erase hn).sum_eq, sum_cons] at htaken
  push_cast [Int.mul_add] at htaken
  unfold State.attempt
  dsimp only
  have hsplit := take_append_drop (s.cache.length - min s.cache.length n) s.cache
  have hrest := length_take (i := s.cache.length - min s.cache.length n) (l := s.cache)
  rw [hwant]
  generalize take (s.cache.length - min s.cache.length n) s.cache = rest at *
  generalize drop (s.cache.length - min s.cache.length n) s.cache = mine at *
  have hlen := congrArg length hsplit
  simp only [← hsplit, count_append, length_append] at howned hall hmin hlen hrest ⊢
  generalize hgot : min allocs (n - (rest.length + mine.length)) = got
  have hmul : mine.length + got = n → (c.bufferSize * mine.length + c.bufferSize * got : Int) = c.bufferSize * n := by
    rintro rfl
    push_cast [Int.mul_add]
    rfl
  split_ifs with hfails
  all_goals
    refine ⟨⟨fun b => ?_, ?_, ?_, ?_, ?_⟩, ?_⟩
    · have hb := howned b
      simp only [State.updateMinFill, count_append, count_new, length_range']
      split_ifs at hb ⊢ <;> omega
    all_goals
      simp only [State.updateMinFill, length_append, length_range']
      push_cast [Int.mul_add]
      omega

theorem Inv.put (h : Inv c back s) (hb : b ∈ s.held) :
    Inv c (back + 1) (s.put c b) ∧ (s.put c b).cache.length ≤ max s.cache.length c.poolSize := by
  obtain ⟨howned, hall, htaken, huse, hmin⟩ := h
  have hcount := fun b' => (perm_cons_erase hb).count_eq b'
  simp only [← length_erase_add_one hb, count_cons] at hall htaken huse hcount
  push_cast [Int.mul_add] at hall htaken huse
  unfold State.put
  split_ifs
  all_goals
    refine ⟨⟨fun b' => ?_, ?_, ?_, ?_, ?_⟩, ?_⟩
    · have hb' := howned b'
      simp only [hcount, count_append, count_singleton] at hb' ⊢
      omega
    all_goals
      simp only [length_append, length_singleton]
      push_cast [Int.mul_add]
      omega

theorem Inv.putAll : ∀ {bufs : List Nat} {back : Nat} {s : State}, Inv c back s → s.putAll c bufs = some s' →
    Inv c (back + bufs.length) s' ∧ s'.cache.length ≤ max s.cache.length c.poolSize
  | [], _, s, h, hput => by
    cases hput
    exact ⟨h, Nat.le_max_left _ _⟩
  | b :: bufs, back, s, h, hput => by
    rw [State.putAll] at hput
    split_ifs at hput with hb
    obtain ⟨hfirst, hlen⟩ := h.put hb
    obtain ⟨hrest, hlen'⟩ := hfirst.putAll hput
    rw [length_cons, Nat.add_comm bufs.length, ← Nat.add_assoc]
    exact ⟨hrest, by omega⟩

/-- A `GetN` that fails finds room in the cache for what it has allocated. -/
def Roomy (c : Config) (s : State) : Action → Prop
  | .attempt n allocs => allocs < n - s.cache.length → s.cache.length + allocs ≤ c.poolSize
  | _ => True

theorem Inv.step (h : Inv c 0 s) {a : Action} (hstep : step c s a = some s') :
    Inv c 0 s' ∧ (Roomy c s a → s'.cache.length ≤ max s.cache.length c.poolSize) := by
  cases a with
  | acquire n =>
    cases hstep
    refine ⟨{ h with taken_eq := ?_ }, fun _ => Nat.le_max_left _ _⟩
    rw [h.taken_eq, sum_cons]
    push_cast [Int.mul_add]
    omega
  | attempt n allocs =>
    rw [Pool.step] at hstep
    split_ifs at hstep with hn
    cases hstep
    obtain ⟨hinv, hlen⟩ := h.attempt hn
    refine ⟨hinv, fun hroom => ?_⟩
    rw [Roomy] at hroom
    split_ifs at hlen <;> omega
  | putN bufs =>
    obtain ⟨s₁, hput, rfl⟩ := Option.map_eq_some_iff.mp hstep
    obtain ⟨hinv, hlen⟩ := h.putAll hput
    have huse := hinv.inUse_eq
    refine ⟨{ hinv with inUse_eq := ?_, minFill_le := Nat.min_le_right _ _ }, fun _ => hlen⟩
    simp only [State.updateMinFill]
    omega
  | flush =>
    obtain ⟨hinv, hlen⟩ := h.flush (Nat.le_refl _) hstep
    exact ⟨hinv, fun _ => by omega⟩
  | flushAged =>
    obtain ⟨hinv, hlen⟩ := h.flush h.minFill_le hstep
    exact ⟨hinv, fun _ => by omega⟩

/-- **The accounting of the pool**, after any run; the cache keeps to its size if every `GetN` that fails has room. -/
theorem accounting {s : State} :
    (ReflTransGen (fun s s' => ∃ a, step c s a = some s') {} s →
      (s.cache ++ s.held).Nodup ∧ s.alloced = s.inUse + s.cache.length ∧ s.inUse = s.held.length ∧
        s.minFill ≤ s.cache.length ∧ (s.flush s.minFill).isSome ∧
        s.taken = c.bufferSize * (s.held.length + s.obtaining.sum : Nat)) ∧
    (ReflTransGen (fun s s' => ∃ a, Roomy c s a ∧ step c s a = some s') {} s → s.cache.length ≤ c.poolSize) := by
  have hinit : Inv c 0 {} := ⟨fun b => by simp, rfl, by simp, rfl, Nat.le_refl 0⟩
  constructor
  · intro hrun
    have h : Inv c 0 s := Run.invariant (fun _ _ h ⟨_, hstep⟩ => (h.step hstep).1) hrun hinit
    refine ⟨?_, ?_, h.inUse_eq, h.minFill_le, ?_, h.taken_eq⟩
    · refine nodup_iff_count_le_one.mpr fun b => ?_
      rw [count_append]
      exact Nat.le_trans (h.owned b) (by split_ifs <;> decide)
    · rw [h.alloced_eq, h.inUse_eq]
      rfl
    · rw [flush_eq h.minFill_le]
      rfl
  · intro hrun
    refine (@Run.invariant _ _ (fun s => Inv c 0 s ∧ s.cache.length ≤ c.poolSize) ?_ _ _ hrun ⟨hinit, Nat.zero_le _⟩).2
    rintro s s' ⟨h, hle⟩ ⟨a, hroom, hstep⟩
    obtain ⟨h', hlen⟩ := h.step hstep
    exact ⟨h', by have := hlen hroom; omega⟩

theorem accounting_retried :
    ∃ s, [.acquire 2, .attempt 2 1, .acquire 2, .attempt 2 1].foldlM (step ⟨1, 1⟩) {} = some s ∧
    (s.cache ++ s.held).Nodup :=
  Exists.imp (fun _ hrun => ⟨hrun, (accounting.1 (Run.of_foldlM hrun)).1⟩) ⟨_, rfl⟩

/-- A pool for one buffer is asked for three and cannot allocate the third one. -/
theorem cache_overflows : ∃ s, [.acquire 3, .attempt 3 2].foldlM (step ⟨1, 1⟩) {} = some s ∧ 1 < s.cache.length :=
  ⟨_, rfl, by decide⟩

end ZClone.Pool
