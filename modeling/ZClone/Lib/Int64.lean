import Mathlib.Algebra.Ring.Int.Defs
import Mathlib.Algebra.Ring.Nat
import Mathlib.Data.Int.Basic

/-!
# Machine integers

An `int64` is an integer between `-2 ^ 63` and `2 ^ 63 - 1`; `int64` is what a result wraps around to.
-/

namespace ZClone

/-- The integer as an `int64`. -/
def int64 (x : Int) : Int := x.bmod (2 ^ 64)

variable {x : Int}

theorem int64_of_lt (hlow : -2 ^ 63 ≤ x) (hhigh : x < 2 ^ 63) : int64 x = x := by
  rw [int64]
  exact Int.bmod_eq_of_le (by omega) (by omega)

/-- An overflow is far below zero, as long as it is not a whole turn. -/
theorem int64_of_le (hlow : 2 ^ 63 ≤ x) (hhigh : x < 2 ^ 63 + 2 ^ 62) : int64 x < -2 ^ 62 := by
  rw [int64, Int.bmod_def]
  omega

theorem le_int64 (x : Int) : -2 ^ 63 ≤ int64 x := by
  rw [int64, Int.bmod_def]
  omega

/-- A sum of two integers that are not negative wraps around once. -/
theorem int64_of_overflow (hlow : 2 ^ 63 ≤ x) (hhigh : x < 2 ^ 64) : int64 x = x - 2 ^ 64 := by
  rw [int64, Int.bmod_def]
  omega

end ZClone
