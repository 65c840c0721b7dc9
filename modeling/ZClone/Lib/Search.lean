import Mathlib.Tactic.ByContra

/-!
# Binary search

`search n p` looks for the first index below `n` with `p`, as `sort.Search` does; `search_eq` says where it ends up if
`p` changes from false to true only once.
-/

namespace ZClone.Search

/-- The loop, with the bounds `i` and `j`. -/
def loop (p : Nat → Bool) : Nat → Nat → Nat → Nat
  | 0, i, _ => i
  | fuel + 1, i, j =>
    if i < j then
      let h := (i + j) / 2
      if p h then loop p fuel i h else loop p fuel (h + 1) j
    else i

def search (n : Nat) (p : Nat → Bool) : Nat := loop p n 0 n

variable {p : Nat → Bool} {n k : Nat}

/-- By induction on the turns left: the place is always between the bounds. -/
theorem loop_eq (hbelow : ∀ h < k, p h = false) (habove : ∀ h, k ≤ h → h < n → p h = true) :
    ∀ {fuel i j : Nat}, j ≤ i + fuel → i ≤ k → k ≤ j → j ≤ n → loop p fuel i j = k
  | 0, i, j, hfuel, hi, hj, _ => by
    rw [loop]
    omega
  | fuel + 1, i, j, hfuel, hi, hj, hn => by
    rw [loop]
    by_cases hlt : i < j
    · rw [if_pos hlt]
      cases hmid : p ((i + j) / 2) with
      | true =>
        have hk : k ≤ (i + j) / 2 := by
          by_contra hk
          rw [hbelow _ (Nat.not_le.mp hk)] at hmid
          cases hmid
        simp only [hmid, if_true]
        exact loop_eq hbelow habove (by omega) hi hk (by omega)
      | false =>
        have hk : (i + j) / 2 < k := by
          by_contra hk
          rw [habove _ (Nat.not_lt.mp hk) (by omega)] at hmid
          cases hmid
        simp only [hmid, Bool.false_eq_true, if_false]
        exact loop_eq hbelow habove (by omega) hk hj hn
    · rw [if_neg hlt]
      omega

theorem search_eq (hk : k ≤ n) (hbelow : ∀ h < k, p h = false) (habove : ∀ h, k ≤ h → h < n → p h = true) :
    search n p = k := loop_eq hbelow habove (by omega) (Nat.zero_le k) hk (Nat.le_refl n)

end ZClone.Search
