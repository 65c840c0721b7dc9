import Mathlib.Data.Nat.Digits.Lemmas

/-!
# Decimal numbers

Go's `strconv.Atoi` and `strconv.Itoa` on byte strings; `atoi_itoa` says that a number is read back.
-/

namespace ZClone.Decimal

open List

def isDigit (b : UInt8) : Bool := 0x30 ≤ b && b ≤ 0x39

/-- `strconv.Atoi`. -/
def atoi (s : List UInt8) : Option Int :=
  let digits := if s.head? = some 0x2B ∨ s.head? = some 0x2D then s.tail else s
  if digits = [] ∨ ¬digits.all isDigit then none
  else
    let n : Int := digits.foldl (fun n b => 10 * n + (b.toNat - 0x30 : Int)) 0
    let n := if s.head? = some 0x2D then -n else n
    if -2 ^ 63 ≤ n ∧ n < 2 ^ 63 then some n else none

/-- The byte of a digit. -/
def digit (d : Nat) : UInt8 := .ofNat (0x30 + d)

/-- `strconv.Itoa` of a number that is not negative. -/
def itoa (n : Nat) : List UInt8 := if n = 0 then [digit 0] else ((Nat.digits 10 n).reverse).map digit

theorem toNat_digit {d : Nat} (h : d < 10) : (digit d).toNat = 0x30 + d := by
  rw [digit, UInt8.toNat_ofNat']
  omega

/-- All bytes of a printed number are digits. -/
theorem exists_of_mem_itoa {n : Nat} {b : UInt8} (h : b ∈ itoa n) : ∃ d < 10, b = digit d := by
  rw [itoa] at h
  split_ifs at h
  · exact ⟨0, by decide, mem_singleton.mp h⟩
  · obtain ⟨d, hd, rfl⟩ := mem_map.mp h
    exact ⟨d, Nat.digits_lt_base (by decide) (mem_reverse.mp hd), rfl⟩

theorem itoa_ne_nil (n : Nat) : itoa n ≠ [] := by
  rw [itoa]
  split_ifs with h
  · exact cons_ne_nil _ _
  · intro hnil
    have hdigits : Nat.digits 10 n = [] := reverse_eq_nil_iff.mp (map_eq_nil_iff.mp hnil)
    exact h (Nat.digits_eq_nil_iff_eq_zero.mp hdigits)

/-- The loop over the digits of a number, the lowest last. -/
theorem foldl_digits {ds : List Nat} (h : ∀ d ∈ ds, d < 10) :
    ((ds.reverse.map digit).foldl (fun n b => 10 * n + (b.toNat - 0x30 : Int)) 0) = (Nat.ofDigits 10 ds : Nat) := by
  induction ds with
  | nil => rfl
  | cons d ds ih =>
    have hd : (digit d).toNat = 0x30 + d := toNat_digit (h d mem_cons_self)
    rw [reverse_cons, map_append, foldl_append, ih fun e he => h e (mem_cons_of_mem _ he),
      map_singleton, foldl_cons, foldl_nil, hd, Nat.ofDigits_cons]
    push_cast
    ring

theorem foldl_itoa (n : Nat) : (itoa n).foldl (fun n b => 10 * n + (b.toNat - 0x30 : Int)) 0 = n := by
  rw [itoa]
  split_ifs with h
  · rw [h]
    rfl
  · rw [foldl_digits fun d hd => Nat.digits_lt_base (by decide) hd, Nat.ofDigits_digits]

theorem all_itoa (n : Nat) : (itoa n).all isDigit = true := by
  rw [all_eq_true]
  intro b hb
  obtain ⟨d, hd, rfl⟩ := exists_of_mem_itoa hb
  have hdigit := toNat_digit hd
  rw [isDigit, Bool.and_eq_true, decide_eq_true_eq, decide_eq_true_eq]
  exact ⟨UInt8.le_iff_toNat_le.mpr (by rw [hdigit]; exact Nat.le_add_right _ _),
    UInt8.le_iff_toNat_le.mpr (by rw [hdigit, show (0x39 : UInt8).toNat = 0x39 from rfl]; omega)⟩

theorem head_itoa (n : Nat) {b : UInt8} (hb : b.toNat < 0x30) : (itoa n).head? ≠ some b := by
  intro hhead
  obtain ⟨d, hd, rfl⟩ := exists_of_mem_itoa (mem_of_mem_head? hhead)
  rw [toNat_digit hd] at hb
  omega

theorem atoi_itoa {n : Nat} (h : n < 2 ^ 63) : atoi (itoa n) = some (n : Int) := by
  have hplus := head_itoa n (b := 0x2B) (by decide)
  have hminus := head_itoa n (b := 0x2D) (by decide)
  simp only [atoi, hplus, hminus, or_self, if_false, itoa_ne_nil, all_itoa, not_true_eq_false, foldl_itoa]
  rw [if_pos (by omega)]

end ZClone.Decimal
