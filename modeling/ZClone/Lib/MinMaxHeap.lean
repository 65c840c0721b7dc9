import Mathlib.Data.List.Basic

/-!
# Min-max heaps

`Push`, `Pop` and `PopMax` of the package `deheap`, a double ended heap in a slice. `none` is a panic.

- `better` compares two places; `min2`, `min3` and `min4` are made of it.
- `climb` is either of the loops of `bubbleup`. The loops have fuel, and `push`, `pop` and `popMax` give them enough.
- `Returns` is a call that does not panic. `push_returns`, `pop_returns` and `popMax_returns`: nothing is read or
  written behind the end of the slice, and what is taken out is what was put in.
-/

namespace ZClone.MinMaxHeap

open List

variable {α : Type}

/-! ## The code -/

def hparent (i : Nat) : Nat := (i - 1) / 2

def hlchild (i : Nat) : Nat := i * 2 + 1

/-- The grandparent: `none` is -1. -/
def parent (i : Nat) : Option Nat := if (i + 1) / 4 = 0 then none else some ((i + 1) / 4 - 1)

def lchild (i : Nat) : Nat := (i + 1) * 4 - 1

def level (i : Nat) : Nat := Nat.log2 (i + 1)

def isMinHeap (i : Nat) : Bool := level i % 2 = 0

def swap (h : List α) (i j : Nat) : Option (List α) :=
  h[i]?.bind fun a => h[j]?.map fun b => (h.set i b).set j a

section Code

variable (less : α → α → Bool)

def lessAt (h : List α) (i j : Nat) : Option Bool := h[i]?.bind fun a => h[j]?.map (less a)

variable (l : Nat) (min : Bool)

/-- The place `j`, if there is one and it goes before `q`. -/
def better (h : List α) (q j : Nat) : Option Nat :=
  if j < l then (lessAt less h j q).map fun b => if b = min then j else q else some q

def min4 (h : List α) (i : Nat) : Option Nat := [i + 1, i + 2, i + 3].foldlM (better less l min h) i

def min2 (h : List α) (i : Nat) : Option Nat := better less l min h i (i + 1)

def min3 (h : List α) (i j k : Nat) : Option Nat := [j, k].foldlM (better less l min h) i

/-- The fix between a grandchild and its parent. -/
def fixParent (h : List α) (v : Nat) : Option (List α) :=
  (lessAt less h (hparent v) v).bind fun b => if b = min then swap h (hparent v) v else some h

/-- Without the places it returns, which only `Remove` looks at. -/
def bubbledown : Nat → List α → Nat → Option (List α)
  | 0, _, _ => none
  | fuel + 1, h, i =>
    (min2 less l min h (hlchild i)).bind fun j =>
      if l ≤ j then some h
      else
        (min4 less l min h (lchild i)).bind fun k => (min3 less l min h i j k).bind fun v =>
          if v = i ∨ l ≤ v then some h
          else
            (swap h v i).bind fun h =>
              if v = j then some h else (fixParent less min h v).bind fun h => bubbledown fuel h v

/-- From `i`, as long as it goes before `j`. -/
def climb : Nat → List α → Nat → Option Nat → Option (List α × Nat)
  | _, h, i, none => some (h, i)
  | 0, _, _, some _ => none
  | fuel + 1, h, i, some j =>
    (lessAt less h i j).bind fun b =>
      if b = min then (swap h i j).bind fun h => climb fuel h j (parent j) else some (h, i)

/-- Without the result, which nothing looks at. -/
def bubbleup (h : List α) (i : Nat) : Option (List α) :=
  (climb less min h.length h i (parent i)).bind fun r =>
    (climb less (!min) h.length r.1 r.2 (some (hparent r.2))).map Prod.fst

def push (h : List α) (o : α) : Option (List α) := bubbleup less (isMinHeap h.length) (h ++ [o]) h.length

/-- `h.Pop()`, and what bubbles down. -/
def popLast (h : List α) (i : Nat) : Option (α × List α) :=
  h.getLast?.bind fun q => (bubbledown less (h.length - 1) min h.length h.dropLast i).map fun h => (q, h)

def pop (h : List α) : Option (α × List α) :=
  if h.length = 0 then none else (swap h 0 (h.length - 1)).bind fun h => popLast less true h 0

def popMax (h : List α) : Option (α × List α) :=
  if h.length = 0 then none
  else
    (if 1 < h.length then min2 less h.length false h 1 else some 0).bind fun j =>
      (swap h j (h.length - 1)).bind fun h => popLast less false h j

end Code

/-! ## One comparison, one swap -/

variable {β γ : Type} {less : α → α → Bool} {min : Bool} {h : List α} {i j k q v fuel : Nat}

/-- A call that does not panic. -/
def Returns (x : Option β) (P : β → Prop) : Prop := ∃ b, x = some b ∧ P b

theorem Returns.bind {x : Option β} {f : β → Option γ} {P : β → Prop} {Q : γ → Prop} (hx : Returns x P)
    (hf : ∀ b, P b → Returns (f b) Q) : Returns (x.bind f) Q := by
  obtain ⟨b, rfl, hb⟩ := hx
  exact hf b hb

theorem Returns.map {x : Option β} {f : β → γ} {P : β → Prop} {Q : γ → Prop} (hx : Returns x P)
    (hf : ∀ b, P b → Q (f b)) : Returns (x.map f) Q := by
  obtain ⟨b, rfl, hb⟩ := hx
  exact ⟨f b, rfl, hf b hb⟩

theorem swap_returns (hi : i < h.length) (hj : j < h.length) : Returns (swap h i j) (·.Perm h) := by
  rw [swap, getElem?_eq_getElem hi, getElem?_eq_getElem hj]
  exact ⟨_, rfl, set_set_perm hi hj⟩

theorem lessAt_returns (hi : i < h.length) (hj : j < h.length) : Returns (lessAt less h i j) fun _ => True := by
  rw [lessAt, getElem?_eq_getElem hi, getElem?_eq_getElem hj]
  exact ⟨_, rfl, trivial⟩

theorem better_returns (hq : q < h.length ∨ h.length ≤ j) :
    Returns (better less h.length min h q j) fun r => r = q ∨ r = j ∧ j < h.length := by
  rw [better]
  split_ifs with hj
  · refine (lessAt_returns hj (hq.resolve_right (Nat.not_le.mpr hj))).map fun b _ => ?_
    split_ifs
    · exact .inr ⟨rfl, hj⟩
    · exact .inl rfl
  · exact ⟨q, rfl, .inl rfl⟩

theorem min3_returns (hi : i < h.length) :
    Returns (min3 less h.length min h i j k) fun v => v < h.length ∧ (v = i ∨ v = j ∨ v = k) :=
  (better_returns (.inl hi)).bind fun _ hq => (better_returns (.inl (by omega))).bind fun v hv =>
    ⟨v, rfl, by omega, by omega⟩

theorem min4_returns : Returns (min4 less h.length min h i) (i ≤ ·) :=
  (better_returns (by omega)).bind fun _ ha => (better_returns (by omega)).bind fun _ hb =>
    (better_returns (by omega)).bind fun k hk => ⟨k, rfl, by omega⟩

theorem fixParent_returns (hv : v < h.length) : Returns (fixParent less min h v) (·.Perm h) := by
  have hp : hparent v < h.length := by
    rw [hparent]
    omega
  refine (lessAt_returns hp hv).bind fun b _ => ?_
  split_ifs
  · exact swap_returns hp hv
  · exact ⟨h, rfl, .refl h⟩

/-! ## The loops -/

/-- What goes down gets nearer to the end. -/
theorem bubbledown_returns (hfuel : h.length - i < fuel) :
    Returns (bubbledown less h.length min fuel h i) (·.Perm h) := by
  induction fuel generalizing h i with
  | zero => exact absurd hfuel (Nat.not_lt_zero _)
  | succ fuel ih =>
    refine (better_returns (by omega)).bind fun j hj => ?_
    by_cases hend : h.length ≤ j
    · rw [if_pos hend]
      exact ⟨h, rfl, .refl h⟩
    rw [if_neg hend]
    refine min4_returns.bind fun k hk => ?_
    rw [hlchild] at hj
    rw [lchild] at hk
    have hi : i < h.length := by omega
    refine (min3_returns hi).bind fun v hv => ?_
    split_ifs with hstay
    · exact ⟨h, rfl, .refl h⟩
    · exact (swap_returns hv.1 hi).bind fun h₁ hperm => ⟨h₁, rfl, hperm⟩
    · refine (swap_returns hv.1 hi).bind fun h₁ hfirst => ?_
      refine (fixParent_returns (hfirst.length_eq ▸ hv.1)).bind fun h₂ hfixed => ?_
      have hperm := hfixed.trans hfirst
      obtain ⟨h₃, hrest, hlast⟩ := ih (h := h₂) (i := v) (by rw [hperm.length_eq]; omega)
      exact ⟨h₃, hperm.length_eq ▸ hrest, hlast.trans hperm⟩

theorem lt_of_mem_parent (h : j ∈ parent i) : j < i := by
  rw [parent] at h
  split_ifs at h
  · cases h
  · cases h
    omega

/-- What goes up gets nearer to the root. -/
theorem climb_returns (hi : i < h.length) {j : Option Nat} (hj : ∀ p ∈ j, p ≤ i ∧ p < fuel) :
    Returns (climb less min fuel h i j) fun r => r.1.Perm h ∧ r.2 < h.length := by
  induction fuel generalizing h i j with
  | zero =>
    cases j with
    | none => exact ⟨(h, i), by rw [climb], .refl h, hi⟩
    | some p => exact absurd (hj p rfl).2 (Nat.not_lt_zero p)
  | succ fuel ih =>
    cases j with
    | none => exact ⟨(h, i), by rw [climb], .refl h, hi⟩
    | some p =>
      have hp := hj p rfl
      have hlt : p < h.length := by omega
      refine (lessAt_returns hi hlt).bind fun b _ => ?_
      split_ifs
      · refine (swap_returns hi hlt).bind fun h₁ hperm => ?_
        obtain ⟨r, hr, hperm', hr'⟩ := ih (h := h₁) (i := p) (j := parent p) (by rwa [hperm.length_eq])
          fun p' hp' => by have := lt_of_mem_parent hp'; omega
        exact ⟨r, hr, hperm'.trans hperm, hperm.length_eq ▸ hr'⟩
      · exact ⟨(h, i), rfl, .refl h, hi⟩

/-! ## The operations -/

theorem push_returns (less : α → α → Bool) (h : List α) (o : α) : Returns (push less h o) (·.Perm (o :: h)) := by
  have hlt : h.length < (h ++ [o]).length := by simp
  refine (climb_returns hlt fun p hp => ?_).bind fun r hr => ?_
  · have := lt_of_mem_parent hp
    omega
  refine (climb_returns (hr.1.length_eq ▸ hr.2) fun p hp => ?_).map fun r' hr' =>
    hr'.1.trans (hr.1.trans (perm_append_singleton o h))
  cases hp
  rw [hparent]
  omega

theorem popLast_returns (hpos : 0 < h.length) (i : Nat) :
    Returns (popLast less min h i) fun r => (r.1 :: r.2).Perm h := by
  obtain ⟨init, q, rfl⟩ := (eq_nil_or_concat' h).resolve_left (ne_nil_of_length_pos hpos)
  rw [popLast, getLast?_concat, Option.bind_some, dropLast_concat, length_append, length_singleton, Nat.add_sub_cancel]
  exact (bubbledown_returns (by omega)).map fun h' hperm =>
    (hperm.cons q).trans (perm_append_singleton q init).symm

theorem pop_returns (less : α → α → Bool) (hne : h ≠ []) : Returns (pop less h) fun r => (r.1 :: r.2).Perm h := by
  have hpos := length_pos_of_ne_nil hne
  rw [pop, if_neg (by omega)]
  refine (swap_returns hpos (by omega)).bind fun h₁ hperm => ?_
  exact (popLast_returns (hperm.length_eq ▸ hpos) 0).imp fun r hr => ⟨hr.1, hr.2.trans hperm⟩

theorem popMax_returns (less : α → α → Bool) (hne : h ≠ []) :
    Returns (popMax less h) fun r => (r.1 :: r.2).Perm h := by
  have hpos := length_pos_of_ne_nil hne
  have hj : Returns (if 1 < h.length then min2 less h.length false h 1 else some 0) (· < h.length) := by
    split_ifs with hone
    · exact (better_returns (.inl hone)).imp fun j hj => ⟨hj.1, by omega⟩
    · exact ⟨0, rfl, hpos⟩
  rw [popMax, if_neg (by omega)]
  refine hj.bind fun j hj => (swap_returns hj (by omega)).bind fun h₁ hperm => ?_
  exact (popLast_returns (hperm.length_eq ▸ hpos) j).imp fun r hr => ⟨hr.1, hr.2.trans hperm⟩

end ZClone.MinMaxHeap
