import Mathlib.Data.List.DropRight
import ZClone.Lib.Decimal
import ZClone.Lib.Path

/-!
# The Mail.ru hash (`backend/mailru/mrhash/mrhash.go`)

The hash of small data is the data itself, filled up with zeros. A digest keeps a running SHA-1 and, next to it, the
data while it is small. `Reset` starts the one again and leaves the other.

- `run_write`: what a digest holds after calls without a reset.
- `sum_iff`: a sum is right just if what is left from before the last reset makes no difference to it.
-/

namespace ZClone.Mrhash

open List
open Decimal (itoa)

abbrev Bytes := List UInt8

section Code

/-- `sha` is what was written to the running SHA-1. -/
structure Digest where
  total : Nat
  sha : Bytes
  small : Bytes

def Size : Nat := 20

def startString : Bytes := Paths.ascii ['m', 'r', 'C', 'l', 'o', 'u', 'd']

def Digest.reset (d : Digest) : Digest := { d with sha := startString, total := 0 }

def new : Digest := Digest.reset ⟨0, [], []⟩

def Digest.write (d : Digest) (p : Bytes) : Digest :=
  let total := d.total + p.length
  ⟨total, d.sha ++ p, if total ≤ Size then d.small ++ p else d.small⟩

/-- `copy` into as many zeros -/
def padded (small : Bytes) : Bytes := small.take Size ++ replicate (Size - small.length) 0

/-- With the digest afterwards; the SHA-1 that is written to is a clone. -/
def Digest.sum (sha1 : Bytes → Bytes) (d : Digest) (b : Bytes) : Bytes × Digest :=
  if d.total ≤ Size then (b ++ padded d.small, d) else (b ++ sha1 (d.sha ++ itoa d.total), d)

inductive Call where
  | write (p : Bytes)
  | sum (b : Bytes)
  | reset
  deriving DecidableEq

def Call.apply (sha1 : Bytes → Bytes) (d : Digest) : Call → Digest
  | .write p => d.write p
  | .sum b => (d.sum sha1 b).2
  | .reset => d.reset

def run (sha1 : Bytes → Bytes) (d : Digest) (calls : List Call) : Digest := calls.foldl (Call.apply sha1) d

end Code

/-! ## The hash of what was written -/

def Call.written : Call → Bytes
  | .write p => p
  | _ => []

/-- What was written since the last reset. -/
def since (calls : List Call) : Bytes := (calls.rtakeWhile (· ≠ .reset)).flatMap Call.written

/-- The calls up to the last reset. -/
def before (calls : List Call) : List Call := calls.rdropWhile (· ≠ .reset)

/-- The hash of the data. -/
def hash (sha1 : Bytes → Bytes) (data : Bytes) : Bytes :=
  if data.length ≤ Size then data ++ replicate (Size - data.length) 0
    else sha1 (startString ++ data ++ itoa data.length)

variable {sha1 : Bytes → Bytes} {d : Digest} {calls : List Call}

theorem padded_of_le {data : Bytes} (h : data.length ≤ Size) :
    padded data = data ++ replicate (Size - data.length) 0 := by
  rw [padded, take_of_length_le h]

theorem sum_snd (b : Bytes) : (d.sum sha1 b).2 = d := by
  rw [Digest.sum]
  split_ifs <;> rfl

/-- What is written after the last reset. -/
theorem run_write (h : ∀ c ∈ calls, c ≠ .reset) :
    (run sha1 d calls).total = d.total + (calls.flatMap Call.written).length ∧
    (run sha1 d calls).sha = d.sha ++ calls.flatMap Call.written ∧
    ((run sha1 d calls).total ≤ Size → (run sha1 d calls).small = d.small ++ calls.flatMap Call.written) := by
  induction calls generalizing d with
  | nil => simp [run]
  | cons c calls ih =>
    obtain ⟨hc, hcalls⟩ := forall_mem_cons.mp h
    obtain ⟨htotal, hsha, hsmall⟩ := ih (d := c.apply sha1 d) hcalls
    have hrun : run sha1 d (c :: calls) = run sha1 (c.apply sha1 d) calls := rfl
    rw [hrun, flatMap_cons]
    cases c with
    | write p =>
      refine ⟨?_, ?_, fun hle => ?_⟩
      · rw [htotal, Call.apply, Digest.write, Call.written, length_append, Nat.add_assoc]
      · rw [hsha, Call.apply, Digest.write, Call.written, append_assoc]
      · have hfits : d.total + p.length ≤ Size := (Nat.le_add_right _ _).trans (htotal ▸ hle)
        rw [hsmall hle, Call.apply, Digest.write, Call.written, if_pos hfits, append_assoc]
    | sum b =>
      rw [Call.apply, sum_snd] at htotal hsha hsmall ⊢
      exact ⟨htotal, hsha, hsmall⟩
    | reset => exact absurd rfl hc

/-- At the last reset, or at the start, all is new but what is kept of small data. -/
theorem run_before (calls : List Call) :
    run sha1 new (before calls) = { new with small := (run sha1 new (before calls)).small } := by
  induction calls using reverseRecOn with
  | nil => rfl
  | append_singleton calls c ih =>
    by_cases hc : c = .reset
    · rw [before, rdropWhile_concat_neg _ _ _ (by simp [hc]), hc, run, foldl_append]
      rfl
    · rw [before, rdropWhile_concat_pos _ _ _ (by simpa using hc)]
      exact ih

/-- A sum does not change the digest, and it is the hash of what was written since the last reset just if that is no
small data, or what is left of small data from before makes no difference. -/
theorem sum_iff (sha1 : Bytes → Bytes) (calls : List Call) (b : Bytes) :
    ((run sha1 new calls).sum sha1 b).2 = run sha1 new calls ∧
    (((run sha1 new calls).sum sha1 b).1 = b ++ hash sha1 (since calls) ↔
      Size < (since calls).length ∨
        padded ((run sha1 new (before calls)).small ++ since calls) = padded (since calls)) := by
  refine ⟨sum_snd b, ?_⟩
  have hsplit : run sha1 new calls = run sha1 (run sha1 new (before calls)) (calls.rtakeWhile (· ≠ .reset)) := by
    rw [run, run, run, ← foldl_append, before, rdropWhile_append_rtakeWhile]
  have htail : ∀ c ∈ calls.rtakeWhile (· ≠ .reset), c ≠ .reset := fun c hc => by simpa using mem_rtakeWhile_imp hc
  obtain ⟨htotal, hsha, hsmall⟩ := @run_write sha1 (run sha1 new (before calls)) _ htail
  rw [← hsplit] at htotal hsha hsmall
  rw [run_before] at htotal hsha
  change _ = 0 + (since calls).length at htotal
  change _ = startString ++ since calls at hsha
  rw [Nat.zero_add] at htotal
  rw [Digest.sum, hash, htotal]
  by_cases hle : (since calls).length ≤ Size
  · rw [if_pos hle, if_pos hle, hsmall (htotal ▸ hle), append_cancel_left_eq, or_iff_right (not_lt.mpr hle),
      ← padded_of_le hle]
    rfl
  · rw [if_neg hle, if_neg hle, hsha]
    exact iff_of_true rfl (.inl (not_le.mp hle))

/-- The hash of nothing, after a byte and a reset. -/
theorem sum_after_reset : ((run id new [.write [1], .reset]).sum id []).1 ≠ hash id (since [.write [1], .reset]) :=
  by decide

end ZClone.Mrhash
