import Mathlib.Data.Nat.Digits.Lemmas

/-!
# Nonces (`backend/crypt/cipher.go`)

A nonce is a number of 24 bytes, the lowest first. `add_eq_iterate`: adding a number is as many increments.
-/

namespace ZClone.Crypt

open List

def fileNonceSize : Nat := 24

structure Nonce where
  bytes : List UInt8
  length_eq : bytes.length = fileNonceSize
  deriving DecidableEq

/-- The loop of `carry` from its position on. -/
def carryDigits : List UInt8 → List UInt8
  | [] => []
  | digit :: rest =>
    let newDigit := digit + 1
    -- exit if no carry
    if newDigit ≥ digit then newDigit :: rest else newDigit :: carryDigits rest

theorem length_carryDigits (l : List UInt8) : (carryDigits l).length = l.length := by
  induction l with
  | nil => rfl
  | cons d l ih =>
    rw [carryDigits]
    split
    · rfl
    · rw [length_cons, length_cons, ih]

def Nonce.carry (n : Nonce) (i : Nat) : Nonce :=
  ⟨n.bytes.take i ++ carryDigits (n.bytes.drop i), by
    rw [List.length_append, length_carryDigits, ← List.length_append, List.take_append_drop, n.length_eq]⟩

def Nonce.increment (n : Nonce) : Nonce := n.carry 0

/-- The loop of `add` over some digits: the carry and the digits. -/
def addDigits : Nat → UInt16 → UInt64 → List UInt8 → UInt16 × List UInt8
  | 0, carry, _, l => (carry, l)
  | _ + 1, carry, _, [] => (carry, [])
  | k + 1, carry, x, digit :: rest =>
    let xDigit := x.toUInt8
    let carry := carry + (digit.toUInt16 + xDigit.toUInt16)
    let more := addDigits k (carry >>> 8) (x >>> 8) rest
    (more.1, carry.toUInt8 :: more.2)

theorem length_addDigits :
    ∀ (k : Nat) (c : UInt16) (x : UInt64) (l : List UInt8), (addDigits k c x l).2.length = l.length
  | 0, _, _, _ => rfl
  | _ + 1, _, _, [] => rfl
  | k + 1, _, _, _ :: l => congrArg (· + 1) (length_addDigits k _ _ l)

def Nonce.add (n : Nonce) (x : UInt64) : Nonce :=
  let sum := addDigits 8 0 x n.bytes
  let n' : Nonce := ⟨sum.2, by rw [length_addDigits, n.length_eq]⟩
  if sum.1 ≠ 0 then n'.carry 8 else n'

/-! ## Values -/

/-- The number with these bytes. -/
def value (l : List UInt8) : Nat := Nat.ofDigits 256 (l.map UInt8.toNat)

theorem value_nil : value [] = 0 := rfl

theorem value_cons (d : UInt8) (l : List UInt8) : value (d :: l) = d.toNat + 256 * value l := by
  rw [value, map_cons, Nat.ofDigits_cons]
  rfl

theorem value_append (l l' : List UInt8) : value (l ++ l') = value l + 256 ^ l.length * value l' := by
  rw [value, map_append, Nat.ofDigits_append, length_map]
  rfl

theorem value_lt (l : List UInt8) : value l < 256 ^ l.length := by
  induction l with
  | nil => exact Nat.one_pos
  | cons d l ih =>
    have hd : d.toNat < 256 := d.toNat_lt
    rw [value_cons, length_cons, pow_succ]
    omega

theorem value_injective : ∀ {l l' : List UInt8}, l.length = l'.length → value l = value l' → l = l'
  | [], [], _, _ => rfl
  | d :: l, d' :: l', hlen, h => by
    have hd : d.toNat < 256 := d.toNat_lt
    have hd' : d'.toNat < 256 := d'.toNat_lt
    rw [value_cons, value_cons] at h
    have hrest : l = l' := value_injective (Nat.succ.inj hlen) (by omega)
    have hfirst : d = d' := UInt8.toNat_inj.mp (by omega)
    rw [hrest, hfirst]

theorem value_carryDigits (l : List UInt8) : value (carryDigits l) = (value l + 1) % 256 ^ l.length := by
  induction l with
  | nil => rfl
  | cons d l ih =>
    have hd : d.toNat < 256 := d.toNat_lt
    have hl := value_lt l
    have hsucc : (d + 1).toNat = (d.toNat + 1) % 256 := UInt8.toNat_add d 1
    rw [carryDigits, length_cons, value_cons, pow_succ]
    split_ifs with hle <;> rw [ge_iff_le, UInt8.le_iff_toNat_le, hsucc] at hle
    · -- no carry
      rw [value_cons, hsucc, Nat.mod_eq_of_lt (by omega), Nat.mod_eq_of_lt (by omega)]
      omega
    · have h255 : d.toNat = 255 := by omega
      have hcarry : (d.toNat + 256 * value l + 1) % (256 ^ l.length * 256) =
          256 * ((value l + 1) % 256 ^ l.length) := by
        rw [h255, show 255 + 256 * value l + 1 = 256 * (value l + 1) by omega, Nat.mul_comm (256 ^ l.length) 256,
          Nat.mul_mod_mul_left]
      rw [value_cons, hsucc, h255, ih, ← h255, hcarry, h255]
      omega

/-- One digit of the sum. -/
theorem toNat_digit_sum {c : UInt16} (hc : c.toNat ≤ 1) (d : UInt8) (x : UInt64) :
    (c + (d.toUInt16 + x.toUInt8.toUInt16)).toNat = c.toNat + d.toNat + x.toNat % 256 := by
  have hd : d.toNat < 256 := d.toNat_lt
  rw [UInt16.toNat_add, UInt16.toNat_add, UInt8.toNat_toUInt16, UInt8.toNat_toUInt16, UInt64.toNat_toUInt8]
  omega

theorem value_addDigits : ∀ (k : Nat) (c : UInt16) (x : UInt64) (l : List UInt8), c.toNat ≤ 1 → k ≤ l.length →
    (addDigits k c x l).1.toNat ≤ 1 ∧ (addDigits k c x l).2.drop k = l.drop k ∧
      value ((addDigits k c x l).2.take k) + 256 ^ k * (addDigits k c x l).1.toNat =
        value (l.take k) + c.toNat + x.toNat % 256 ^ k
  | 0, c, x, l, hc, _ => ⟨hc, rfl, by simp [addDigits, value_nil, Nat.mod_one]⟩
  | k + 1, c, x, d :: l, hc, hk => by
    have hd : d.toNat < 256 := d.toNat_lt
    have hsum := toNat_digit_sum hc d x
    have hshift : ((c + (d.toUInt16 + x.toUInt8.toUInt16)) >>> 8).toNat =
        (c.toNat + d.toNat + x.toNat % 256) / 256 := by
      rw [UInt16.toNat_shiftRight, hsum, Nat.shiftRight_eq_div_pow]
      rfl
    have hx : (x >>> 8).toNat = x.toNat / 256 := by
      rw [UInt64.toNat_shiftRight, Nat.shiftRight_eq_div_pow]
      rfl
    have hlow : (c + (d.toUInt16 + x.toUInt8.toUInt16)).toUInt8.toNat = (c.toNat + d.toNat + x.toNat % 256) % 256 := by
      rw [UInt16.toNat_toUInt8, hsum]
    obtain ⟨hcarry, hdrop, hvalue⟩ := value_addDigits k ((c + (d.toUInt16 + x.toUInt8.toUInt16)) >>> 8) (x >>> 8) l
      (by rw [hshift]; omega) (by simpa using hk)
    refine ⟨hcarry, hdrop, ?_⟩
    rw [addDigits]
    rw [take_succ_cons, take_succ_cons, value_cons, value_cons, hlow, pow_succ]
    rw [hshift, hx] at hvalue
    have hmod : x.toNat % (256 ^ k * 256) = x.toNat % 256 + 256 * (x.toNat / 256 % 256 ^ k) := by
      rw [Nat.mul_comm, Nat.mod_mul]
    rw [hmod]
    generalize 256 ^ k = p at hvalue ⊢
    generalize (addDigits k ((c + (d.toUInt16 + x.toUInt8.toUInt16)) >>> 8) (x >>> 8) l).1.toNat = c' at hvalue ⊢
    rw [Nat.mul_assoc, Nat.mul_left_comm]
    omega

theorem value_carry (n : Nonce) {i : Nat} (hi : i ≤ fileNonceSize) :
    value (n.carry i).bytes = value (n.bytes.take i) +
      256 ^ i * ((value (n.bytes.drop i) + 1) % 256 ^ (fileNonceSize - i)) := by
  have hlen : (n.bytes.take i).length = i := by rw [length_take, n.length_eq, Nat.min_eq_left hi]
  rw [Nonce.carry, value_append, value_carryDigits, hlen, length_drop, n.length_eq]

theorem value_increment (n : Nonce) : value n.increment.bytes = (value n.bytes + 1) % 256 ^ fileNonceSize := by
  have h := value_carry n (Nat.zero_le _)
  rw [take_zero, drop_zero, value_nil, pow_zero, Nat.one_mul, Nat.zero_add, Nat.sub_zero] at h
  exact h

/-- Digits below a position and a number above. -/
theorem add_mul_mod {low high k m : Nat} (hlow : low < 256 ^ k) :
    (low + 256 ^ k * high) % 256 ^ (k + m) = low + 256 ^ k * (high % 256 ^ m) := by
  rw [pow_add, Nat.mod_mul, Nat.add_mul_mod_self_left, Nat.mod_eq_of_lt hlow, Nat.add_mul_div_left _ _ (by positivity),
    Nat.div_eq_of_lt hlow, Nat.zero_add]

theorem value_add (n : Nonce) (x : UInt64) :
    value (n.add x).bytes = (value n.bytes + x.toNat) % 256 ^ fileNonceSize := by
  have hx : x.toNat < 256 ^ 8 := x.toNat_lt
  obtain ⟨hcarry, hdrop, hvalue⟩ := value_addDigits 8 0 x n.bytes (by decide) (by rw [n.length_eq]; decide)
  have hlen := length_addDigits 8 0 x n.bytes
  rw [Nat.mod_eq_of_lt hx, show (0 : UInt16).toNat = 0 from rfl, Nat.add_zero] at hvalue
  rw [Nonce.add]
  set sum := addDigits 8 0 x n.bytes
  have hlow : value (sum.2.take 8) < 256 ^ 8 := by
    have hlt := value_lt (sum.2.take 8)
    rwa [length_take, hlen, n.length_eq] at hlt
  have hsplit : ∀ l : List UInt8, l.length = fileNonceSize →
      value l = value (l.take 8) + 256 ^ 8 * value (l.drop 8) := by
    intro l hl
    conv_lhs => rw [← take_append_drop 8 l]
    rw [value_append, length_take, hl]
    rfl
  have htotal : value n.bytes + x.toNat = value (sum.2.take 8) + 256 ^ 8 * (value (n.bytes.drop 8) + sum.1.toNat) := by
    rw [hsplit n.bytes n.length_eq]
    omega
  rw [htotal, show fileNonceSize = 8 + 16 from rfl, add_mul_mod hlow]
  split_ifs with hzero
  · have hone : sum.1.toNat = 1 := by
      have hne : sum.1.toNat ≠ 0 := fun h => hzero (UInt16.toNat_inj.mp h)
      omega
    have hc := @value_carry ⟨sum.2, by rw [hlen, n.length_eq]⟩ 8 (by decide)
    rw [hc, hdrop, hone]
    rfl
  · have hzero' : sum.1.toNat = 0 := by
      rw [not_not.mp hzero]
      rfl
    have hhigh := value_lt (n.bytes.drop 8)
    rw [length_drop, n.length_eq] at hhigh
    have hbytes := hsplit sum.2 (by rw [hlen, n.length_eq])
    rw [hdrop] at hbytes
    rw [hzero', Nat.add_zero, Nat.mod_eq_of_lt (show _ < 256 ^ 16 from hhigh)]
    exact hbytes

theorem Nonce.ext_value {n n' : Nonce} (h : value n.bytes = value n'.bytes) : n = n' := by
  obtain ⟨l, hl⟩ := n
  obtain ⟨l', hl'⟩ := n'
  obtain rfl := value_injective (hl.trans hl'.symm) h
  rfl

theorem value_iterate_increment (k : Nat) (n : Nonce) :
    value (Nonce.increment^[k] n).bytes = (value n.bytes + k) % 256 ^ fileNonceSize := by
  induction k generalizing n with
  | zero =>
    have hlt := value_lt n.bytes
    rw [n.length_eq] at hlt
    exact (Nat.mod_eq_of_lt hlt).symm
  | succ k ih => rw [Function.iterate_succ_apply, ih, value_increment, Nat.mod_add_mod, Nat.add_assoc, Nat.add_comm 1 k]

/-- Adding a number is as many increments. -/
theorem add_eq_iterate (n : Nonce) (x : UInt64) : n.add x = Nonce.increment^[x.toNat] n := by
  refine Nonce.ext_value ?_
  rw [value_add, value_iterate_increment]

end ZClone.Crypt
