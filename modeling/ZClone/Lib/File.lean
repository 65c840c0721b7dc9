import Mathlib.Data.List.Basic

/-!
# The content of a sparse file

- `resize` cuts a file or fills it up with zeros; `pwrite` writes at an offset, with zeros in a gap.
- `getElem?_resize` and `getElem?_pwrite_of_mem` and the lemmas beside it say what is read back.
-/

namespace ZClone.File

open List

variable {β : Type*} [Zero β] {off p : Nat} {file b : List β}

/-- The file cut or filled up with zeros to the given length. -/
def resize (file : List β) (n : Nat) : List β := file.take n ++ List.replicate (n - file.length) 0

/-- The file with bytes written at an offset; a write of nothing does not touch it. -/
def pwrite (file b : List β) (off : Nat) : List β :=
  if b.isEmpty then file else resize file off ++ b ++ file.drop (off + b.length)

@[simp] theorem length_resize (file : List β) (n : Nat) : (resize file n).length = n := by
  simp only [resize, length_append, length_take, length_replicate]
  omega

theorem getElem?_resize (file : List β) (n p : Nat) :
    (resize file n)[p]? = if p < n then some (file[p]?.getD 0) else none := by
  by_cases hp : p < n
  · rw [if_pos hp, resize, getElem?_append, length_take, getElem?_take_of_lt hp, getElem?_replicate]
    by_cases hlen : p < file.length
    · rw [if_pos (by omega), getElem?_eq_getElem hlen]
      rfl
    · rw [if_neg (by omega), if_pos (by omega), getElem?_eq_none (by omega)]
      rfl
  · rw [if_neg hp]
    exact getElem?_eq_none (by rw [length_resize]; omega)

theorem resize_self (file : List β) : resize file file.length = file := by simp [resize]

theorem pwrite_nil (file : List β) (off : Nat) : pwrite file [] off = file := rfl

/-- A write at the end appends. -/
theorem pwrite_length (file b : List β) : pwrite file b file.length = file ++ b := by
  by_cases hb : b = []
  · rw [hb, pwrite_nil, append_nil]
  · simp [pwrite, hb, resize_self]

theorem length_pwrite (hb : b ≠ []) : (pwrite file b off).length = max file.length (off + b.length) := by
  simp only [pwrite, List.isEmpty_iff, hb, ↓reduceIte, length_append, length_resize, length_drop]
  omega

/-- The bytes written are read back. -/
theorem getElem?_pwrite_of_mem (hlo : off ≤ p) (hhi : p < off + b.length) : (pwrite file b off)[p]? = b[p - off]? := by
  have hb : b ≠ [] := ne_nil_of_length_pos (by omega)
  simp only [pwrite, List.isEmpty_iff, hb, ↓reduceIte]
  rw [getElem?_append_left (by rw [length_append, length_resize]; omega),
    getElem?_append_right (by rw [length_resize]; exact hlo), length_resize]

/-- Other bytes of the file stay. -/
theorem getElem?_pwrite_of_lt (hp : p < off ∨ off + b.length ≤ p) (hlen : p < file.length) :
    (pwrite file b off)[p]? = file[p]? := by
  by_cases hb : b = []
  · rw [hb, pwrite_nil]
  · simp only [pwrite, List.isEmpty_iff, hb, ↓reduceIte]
    rcases hp with hp | hp
    · rw [append_assoc, getElem?_append_left (by rw [length_resize]; exact hp), getElem?_resize, if_pos hp,
        getElem?_eq_getElem hlen]
      rfl
    · have hl : (resize file off ++ b).length = off + b.length := by rw [length_append, length_resize]
      rw [getElem?_append_right (by rw [hl]; exact hp), hl, getElem?_drop]
      congr 1
      omega

/-- A gap reads as zeros. -/
theorem getElem?_pwrite_gap (hb : b ≠ []) (hp : p < off) (hlen : file.length ≤ p) :
    (pwrite file b off)[p]? = some 0 := by
  simp only [pwrite, List.isEmpty_iff, hb, ↓reduceIte]
  rw [append_assoc, getElem?_append_left (by rw [length_resize]; exact hp), getElem?_resize, if_pos hp,
    getElem?_eq_none hlen]
  rfl

end ZClone.File
