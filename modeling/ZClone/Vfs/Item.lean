import ZClone.Ranges.SliceFind
import ZClone.Vfs.CacheFile

/-!
# A cache item in `int64` (`vfs/vfscache/item.go`)

The operations of `CacheFile` as the code computes them, on the slice of ranges and with `int64` arithmetic.

- `Small`: every range present, and the size, is an `int64`. As long as the operations stay below `2 ^ 63`, they keep it
  and compute what those of `CacheFile` do (`writeAt_eq`, `truncate_eq`, `writeAtNoOverwrite_eq`).
-/

namespace ZClone.Vfs.Item

open File Ranges CacheFile List

section

variable (c : CacheFile)

/-- `_written`. -/
def written (offset size : Int) : CacheFile := { c with rs := Slice.insert c.rs ⟨offset, size⟩ }

def writeAt (b : List UInt8) (off : Nat) : CacheFile :=
  let c := written (c.writeFile b off) off b.length
  let stop := int64 (off + b.length)
  let c := if c.size < off then written c c.size (int64 (off - c.size)) else c
  if c.size < stop then { c with size := stop } else c

def truncate (size : Nat) : Option CacheFile :=
  let oldSize : Int := c.file.length
  let c := ({ c with size := oldSize } : CacheFile).truncateFile size
  if oldSize < size then some (written c oldSize size)
  else if size < oldSize then (Slice.intersection c.rs ⟨0, size⟩ (size + 1)).map fun rs => { c with rs }
  else some c

/-- The loop of `WriteAtNoOverwrite`. A piece that is no part of the bytes is a panic. -/
def downloadLoop : List FoundRange → Downloaded → List UInt8 → Int → Option Downloaded
  | [], d, _, _ => some d
  | found :: rest, d, b, off =>
    if found.r.pos ≠ off then some { d with err := some .wrongOffset }
    else if found.r.size < 0 ∨ b.length < found.r.size then none
    else
      let size := found.r.size.toNat
      let d : Downloaded :=
        if found.present then { d with skipped := d.skipped + size }
        else { d with cache := written (d.cache.writeFile (b.take size) off.toNat) off size }
      downloadLoop rest { d with n := d.n + size } (b.drop size) (int64 (off + size))

def writeAtNoOverwrite (b : List UInt8) (off : Nat) : Option Downloaded := do
  let found ← Slice.findAll c.rs ⟨off, b.length⟩ (b.length + 1)
  downloadLoop found { cache := c } b off

end

/-! ## Below `2 ^ 63` -/

structure Small (c : CacheFile) : Prop where
  canonical : Canonical c.rs
  holds : ∀ x ∈ c.rs, Slice.positions.Holds x
  size_nonneg : 0 ≤ c.size
  size_lt : c.size < 2 ^ 63

variable {c : CacheFile}

/-- Ranges without an overlap are `int64` ranges if their bytes are. -/
theorem holds_of_covers {rs : List Range} (hcan : Canonical rs) (h : ∀ p, Covers rs p → 0 ≤ p ∧ p < 2 ^ 63 - 1) :
    ∀ x ∈ rs, Slice.positions.Holds x := by
  intro x hx
  have hsize := hcan.pos x hx
  have hfirst := h x.pos ⟨x, hx, le_refl _, by simp only [Range.stop]; omega⟩
  have hlast := h (x.stop - 1) ⟨x, hx, by simp only [Range.stop]; omega, by omega⟩
  exact ⟨hsize, hfirst.1, by simp only [Slice.positions]; omega⟩

theorem Small.fits (h : Small c) : ∀ x ∈ c.rs, Slice.Fits x := by
  intro x hx
  obtain ⟨hsize, hpos, hstop⟩ := h.holds x hx
  simp only [Slice.positions, Range.stop] at hpos hstop
  exact ⟨by omega, by omega, by simp only [Range.stop]; omega⟩

theorem written_eq (h : Small c) {offset : Int} (hoffset : 0 ≤ offset) (size : Int) (hstop : offset + size < 2 ^ 63) :
    written c offset size = c.written offset size ∧ Small (c.written offset size) := by
  have hr : 0 < (⟨offset, size⟩ : Range).size → Slice.positions.Holds ⟨offset, size⟩ := fun hsize =>
    ⟨hsize, hoffset, by simp only [Slice.positions, Range.stop]; omega⟩
  refine ⟨?_, canonical_insert h.canonical _, Slice.holds_insert Slice.positions.exact h.holds hr, h.size_nonneg,
    h.size_lt⟩
  rw [written, Slice.insert_eq Slice.positions.exact h.canonical h.holds hr, CacheFile.written]

theorem Small.writeFile (h : Small c) (b : List UInt8) (off : Nat) : Small (c.writeFile b off) :=
  ⟨h.canonical, h.holds, h.size_nonneg, h.size_lt⟩

theorem writeAt_eq (h : Small c) {b : List UInt8} {off : Nat} (hstop : off + b.length < 2 ^ 63) :
    writeAt c b off = c.writeAt b off ∧ Small (c.writeAt b off) := by
  have hnonneg := h.size_nonneg
  have hlt := h.size_lt
  obtain ⟨hwritten, hsmall⟩ := written_eq (h.writeFile b off) (Int.natCast_nonneg off) b.length (by omega)
  have hend : int64 (off + b.length) = off + b.length := int64_of_lt (by omega) (by omega)
  -- the gap in front of the write
  have hgap : Small (((c.writeFile b off).written off b.length).markGap off) ∧
      (if ((c.writeFile b off).written off b.length).size < off then
        written ((c.writeFile b off).written off b.length) c.size (int64 (off - c.size))
      else (c.writeFile b off).written off b.length) = ((c.writeFile b off).written off b.length).markGap off := by
    rw [markGap, int64_of_lt (by omega) (by omega), written_size, writeFile_size]
    split_ifs with hbehind
    · obtain ⟨heq, hsmall⟩ := written_eq hsmall hnonneg (off - c.size) (by omega)
      exact ⟨hsmall, heq⟩
    · exact ⟨hsmall, rfl⟩
  obtain ⟨hrs, -, hsize⟩ := growSize_spec (((c.writeFile b off).written off b.length).markGap off) (off + b.length)
  constructor
  · rw [writeAt, hwritten, hend]
    exact congrArg (fun c : CacheFile => c.growSize (off + b.length)) hgap.2
  · rw [CacheFile.writeAt, markWritten]
    refine ⟨?_, ?_, ?_, ?_⟩
    · rw [hrs]
      exact hgap.1.canonical
    · rw [hrs]
      exact hgap.1.holds
    · rw [hsize]
      have := hgap.1.size_nonneg
      omega
    · rw [hsize]
      have := hgap.1.size_lt
      omega

theorem truncate_eq (h : Small c) {size : Nat} (hsize : size < 2 ^ 63)
    (hgrow : c.file.length < size → c.file.length + size < 2 ^ 63) :
    truncate c size = some (c.truncate size) ∧ Small (c.truncate size) := by
  have hresized : Small { c with file := resize c.file size, size := size } :=
    ⟨h.canonical, h.holds, by simp, by simp only; omega⟩
  rw [truncate]
  simp only [truncateFile_natCast]
  rcases Nat.lt_trichotomy c.file.length size with hlt | heq | hlt
  · rw [if_pos (by omega), truncate_grow hlt]
    obtain ⟨heq, hsmall⟩ := written_eq hresized (Int.natCast_nonneg c.file.length) size (by have := hgrow hlt; omega)
    exact ⟨congrArg some heq, hsmall⟩
  · rw [if_neg (by omega), if_neg (by omega), truncate_same heq]
    exact ⟨rfl, hresized⟩
  · rw [if_neg (by omega), if_pos (by omega), truncate_shrink hlt]
    have hfits : Slice.Fits ⟨0, size⟩ := ⟨by simp, by simp only; omega, by simp only [Range.stop]; omega⟩
    obtain ⟨hcan, hcovers⟩ := intersection_spec h.canonical ⟨0, size⟩
    refine ⟨by rw [Slice.intersection_eq h.canonical h.fits hfits
      (by simp)]; rfl, hcan, ?_, by simp, by simp only; omega⟩
    refine holds_of_covers hcan fun p hp => ?_
    obtain ⟨-, hlow, hhigh⟩ := (hcovers p).mp hp
    simp only [Range.stop] at hlow hhigh
    omega

/-- By induction on the pieces; they tile the range, which ends below `2 ^ 63`. -/
theorem downloadLoop_eq {rs : List Range} : ∀ {fs : List FoundRange} {d : Downloaded} {b : List UInt8} {off : Nat},
    Small d.cache → off + b.length < 2 ^ 63 → Tiling rs off (off + b.length) fs →
    downloadLoop fs d b off = some (CacheFile.downloadLoop fs d b off) ∧ Small (CacheFile.downloadLoop fs d b off).cache
  | [], _, _, _, h, _, _ => ⟨rfl, h⟩
  | f :: fs, d, b, off, h, hbound, htile => by
    obtain ⟨size, hpos, hnat, hle, htail'⟩ := exists_piece htile
    have hbound' : off + size + (b.drop size).length < 2 ^ 63 := by
      rw [length_drop]
      omega
    have hoff : int64 (off + size) = (off + size : Nat) := by
      rw [int64_of_lt (by omega) (by omega), Int.natCast_add]
    have hwhere : ¬ f.r.pos ≠ off := not_not.mpr hpos
    rw [downloadLoop, CacheFile.downloadLoop, if_neg hwhere, if_neg hwhere, hnat, if_neg (by omega)]
    simp only [Int.toNat_natCast, hoff]
    cases f.present with
    | true => exact downloadLoop_eq h hbound' htail'
    | false =>
      obtain ⟨heq, hsmall⟩ := written_eq (h.writeFile (b.take size) off) (Int.natCast_nonneg off) size (by omega)
      simp only [Bool.false_eq_true, ↓reduceIte, heq]
      exact @downloadLoop_eq rs fs
        { d with cache := (d.cache.writeFile (b.take size) off).written off size, n := d.n + size }
        (b.drop size) (off + size) hsmall hbound' htail'

theorem writeAtNoOverwrite_eq (h : Small c) {b : List UInt8} {off : Nat} (hbound : off + b.length < 2 ^ 63) :
    writeAtNoOverwrite c b off = some (c.writeAtNoOverwrite b off) ∧ Small (c.writeAtNoOverwrite b off).cache := by
  have htile : Tiling c.rs off (off + b.length) (findAll c.rs ⟨off, b.length⟩) :=
    findAll_spec (r := ⟨off, b.length⟩) h.canonical (Int.natCast_nonneg _)
  have hfits : Slice.Fits ⟨off, b.length⟩ :=
    ⟨by simp only; omega, by simp only; omega, by simp only [Range.stop]; omega⟩
  rw [writeAtNoOverwrite, Slice.findAll, Slice.eachPiece_findAll h.canonical h.fits _ (fun _ => hfits) (by simp)]
  have hfound : (findAll c.rs ⟨off, b.length⟩).foldl (fun frs fr => frs ++ [fr]) [] = findAll c.rs ⟨off, b.length⟩ := by
    rw [foldl_append_eq_append, nil_append, ← flatMap_def, flatMap_singleton']
  rw [hfound]
  exact downloadLoop_eq h hbound htile

end ZClone.Vfs.Item
