import Mathlib.Data.List.Basic

/-!
# Hexadecimal text

`encode` is Go's `hex.EncodeToString`: two lower-case digits per byte.
-/

namespace ZClone.Hex

open List

/-- The code of a digit; the letters begin with the code `a`. -/
def code (a n : Nat) : Nat := if n < 10 then 0x30 + n else a + (n - 10)

def digit (n : Nat) : UInt8 := .ofNat (code 0x61 n)

def encode (bs : List UInt8) : List UInt8 := bs.flatMap fun b => [digit (b.toNat / 16), digit (b.toNat % 16)]

theorem digit_injective : ∀ n < 16, ∀ m < 16, digit n = digit m → n = m := by decide

theorem encode_cons (b : UInt8) (bs : List UInt8) :
    encode (b :: bs) = digit (b.toNat / 16) :: digit (b.toNat % 16) :: encode bs := rfl

theorem length_encode : ∀ bs : List UInt8, (encode bs).length = 2 * bs.length
  | [] => rfl
  | b :: bs => by
    rw [encode_cons, length_cons, length_cons, length_encode bs, length_cons]
    omega

theorem exists_of_mem_encode {bs : List UInt8} {d : UInt8} (h : d ∈ encode bs) : ∃ n < 16, d = digit n := by
  obtain ⟨b, -, hd⟩ := mem_flatMap.mp h
  have hb := b.toNat_lt
  rcases mem_cons.mp hd with hd | hd
  · exact ⟨b.toNat / 16, by omega, hd⟩
  · exact ⟨b.toNat % 16, by omega, by simpa using hd⟩

theorem encode_injective : ∀ {bs cs : List UInt8}, encode bs = encode cs → bs = cs
  | [], [], _ => rfl
  | [], _ :: _, h => by simp [encode] at h
  | _ :: _, [], h => by simp [encode] at h
  | b :: bs, c :: cs, h => by
    rw [encode_cons, encode_cons, cons.injEq, cons.injEq] at h
    obtain ⟨hhigh, hlow, hrest⟩ := h
    have hb := b.toNat_lt
    have hc := c.toNat_lt
    have hdiv := digit_injective _ (by omega) _ (by omega) hhigh
    have hmod := digit_injective _ (by omega) _ (by omega) hlow
    have heq : b.toNat = c.toNat := by omega
    rw [UInt8.toNat_inj.mp heq, encode_injective hrest]

end ZClone.Hex
