import Mathlib.Data.UInt
import ZClone.Lib.File
import ZClone.Ranges.Find

/-!
# The data of a cache item (`vfs/vfscache/item.go`)

A cache item has a sparse file and the ranges `Rs` of it that are present. The user's writes go through `writeAt` and
`truncate`; downloaders fill in what is missing through `writeAtNoOverwrite`.

- `writeAtNoOverwrite_spec`: a download writes its bytes where nothing is present, and only there.
-/

namespace ZClone.Vfs

open File Ranges List

/-- The backing file of an item, `info.Rs` and `info.Size`. -/
structure CacheFile where
  file : List UInt8
  rs : List Range := []
  size : Int
  deriving DecidableEq

variable {c : CacheFile} {size off : Nat} {b : List UInt8}

namespace CacheFile

/-- The error of `WriteAtNoOverwrite`. -/
inductive DownloadError where
  /-- internal error: offset of range is wrong -/
  | wrongOffset
  deriving DecidableEq

/-- What `WriteAtNoOverwrite` leaves and returns. -/
structure Downloaded where
  cache : CacheFile
  n : Nat := 0
  skipped : Nat := 0
  err : Option DownloadError := none
  deriving DecidableEq

/-- The byte is marked present. -/
def Present (c : CacheFile) (p : Nat) : Prop := Covers c.rs p

instance (c : CacheFile) (p : Nat) : Decidable (c.Present p) := inferInstanceAs (Decidable (Covers _ _))

section

variable (c : CacheFile)

def written (offset size : Int) : CacheFile := { c with rs := insert c.rs ⟨offset, size⟩ }

/-- The part of `WriteAt` without the item lock. -/
def writeFile (b : List UInt8) (off : Nat) : CacheFile := { c with file := pwrite c.file b off }

/-- A write at `off` behind the end leaves zeros in between. -/
def markGap (off : Nat) : CacheFile := if c.size < off then c.written c.size (off - c.size) else c

def growSize (stop : Int) : CacheFile := if c.size < stop then { c with size := stop } else c

/-- The part of `WriteAt` with the item lock, after `n` bytes were written at `off`. -/
def markWritten (off n : Nat) : CacheFile := ((c.written off n).markGap off).growSize (off + n)

def writeAt (b : List UInt8) (off : Nat) : CacheFile := (c.writeFile b off).markWritten off b.length

/-- `_truncate` of an open item; a negative size is an unknown one. -/
def truncateFile (size : Int) : CacheFile :=
  if size < 0 then c else { c with file := if c.file.length = size then c.file else resize c.file size.toNat, size }

/-- `Truncate` of an open item. -/
def truncate (size : Int) : CacheFile :=
  let oldSize : Int := c.file.length
  let c := ({ c with size := oldSize } : CacheFile).truncateFile size
  if oldSize < size then c.written oldSize size
  else if size < oldSize then { c with rs := intersection c.rs ⟨0, size⟩ }
  else c

@[simp] theorem written_file (offset size : Int) : (c.written offset size).file = c.file := rfl

@[simp] theorem written_size (offset size : Int) : (c.written offset size).size = c.size := rfl

@[simp] theorem writeFile_size (b : List UInt8) (off : Nat) : (c.writeFile b off).size = c.size := rfl

theorem growSize_spec (stop : Int) :
    (c.growSize stop).rs = c.rs ∧ (c.growSize stop).file = c.file ∧ (c.growSize stop).size = max c.size stop := by
  rw [growSize]
  split
  · exact ⟨rfl, rfl, by simp only; omega⟩
  · exact ⟨rfl, rfl, by omega⟩

theorem truncateFile_natCast (size : Nat) :
    c.truncateFile size = { c with file := resize c.file size, size := size } := by
  rw [truncateFile, if_neg (by omega)]
  by_cases hsame : (c.file.length : Int) = size
  · obtain rfl : c.file.length = size := by omega
    rw [if_pos rfl, resize_self]
  · rw [if_neg hsame, Int.toNat_natCast]

end

/-- The loop of `WriteAtNoOverwrite` over the ranges found. -/
def downloadLoop : List FoundRange → Downloaded → List UInt8 → Nat → Downloaded
  | [], d, _, _ => d
  | found :: rest, d, b, off =>
    if found.r.pos ≠ off then { d with err := some .wrongOffset }
    else
      let size := found.r.size.toNat
      let d : Downloaded :=
        if found.present then { d with skipped := d.skipped + size }
        else { d with cache := (d.cache.writeFile (b.take size) off).written off size }
      downloadLoop rest { d with n := d.n + size } (b.drop size) (off + size)

def writeAtNoOverwrite (c : CacheFile) (b : List UInt8) (off : Nat) : Downloaded :=
  downloadLoop (findAll c.rs ⟨off, b.length⟩) { cache := c } b off

section

variable (hcan : Canonical c.rs)

include hcan

theorem canonical_written (offset size : Int) : Canonical (c.written offset size).rs := canonical_insert hcan _

theorem present_written (offset size : Int) (p : Nat) :
    (c.written offset size).Present p ↔ c.Present p ∨ (offset ≤ p ∧ p < offset + size) := covers_insert hcan _ _

theorem markGap_spec (off : Nat) :
    Canonical (c.markGap off).rs ∧ (c.markGap off).file = c.file ∧ (c.markGap off).size = c.size ∧
      ∀ p, (c.markGap off).Present p ↔ c.Present p ∨ (c.size ≤ p ∧ p < off) := by
  rw [markGap]
  split
  · refine ⟨canonical_written hcan _ _, rfl, rfl, fun p => ?_⟩
    rw [present_written hcan]
    exact or_congr Iff.rfl (by omega)
  · exact ⟨hcan, rfl, rfl, fun p => ⟨.inl, fun h => h.resolve_right (by omega)⟩⟩

/-- What the locked part of `WriteAt` marks. -/
theorem markWritten_spec (off n : Nat) : Canonical (c.markWritten off n).rs ∧ (c.markWritten off n).file = c.file ∧
      (c.markWritten off n).size = max c.size (off + n) ∧
      ∀ p, (c.markWritten off n).Present p ↔ c.Present p ∨ (off ≤ p ∧ p < off + n) ∨ (c.size ≤ p ∧ p < off) := by
  obtain ⟨hcan', hfile, hsize, hpres⟩ := markGap_spec (canonical_written hcan off n) off
  obtain ⟨hrs, hfile', hsize'⟩ := growSize_spec ((c.written off n).markGap off) (off + n)
  refine ⟨?_, hfile'.trans hfile, ?_, fun p => ?_⟩
  · rw [markWritten, hrs]
    exact hcan'
  · rw [markWritten, hsize', hsize, written_size]
  · have hgap := hpres p
    rw [present_written hcan, written_size] at hgap
    rw [markWritten, Present, hrs]
    refine hgap.trans (or_assoc.trans (or_congr Iff.rfl (or_congr ?_ Iff.rfl)))
    omega

end

/-- A file that grows is marked from its old end on, by the new size and not up to it. -/
theorem truncate_grow (h : c.file.length < size) :
    c.truncate size = ({ c with file := resize c.file size, size := size } : CacheFile).written c.file.length size := by
  simp only [truncate, truncateFile_natCast]
  rw [if_pos (by omega)]

theorem truncate_shrink (h : size < c.file.length) :
    c.truncate size = { file := resize c.file size, rs := intersection c.rs ⟨0, size⟩, size := size } := by
  simp only [truncate, truncateFile_natCast]
  rw [if_neg (by omega), if_pos (by omega)]

theorem truncate_same (h : c.file.length = size) :
    c.truncate size = { c with file := resize c.file size, size := size } := by
  simp only [truncate, truncateFile_natCast]
  rw [if_neg (by omega), if_neg (by omega)]

/-! ## Downloads -/

/-- The byte is written by a download of `len` bytes at `off`. -/
def Filled (c : CacheFile) (off len p : Nat) : Prop := off ≤ p ∧ p < off + len ∧ ¬ c.Present p

/-- What a download leaves behind. -/
structure Fills (c c' : CacheFile) (b : List UInt8) (off : Nat) (filled : Nat → Prop) : Prop where
  canonical : Canonical c'.rs
  size : c'.size = c.size
  present : ∀ p : Nat, c'.Present p ↔ c.Present p ∨ filled p
  new : ∀ p, filled p → c'.file[p]? = b[p - off]?
  old : ∀ p, ¬ filled p → p < c.file.length → c'.file[p]? = c.file[p]?
  grows : c.file.length ≤ c'.file.length
  /-- The file grows only by bytes filled in behind its end. -/
  within : (∀ p, filled p → p < c.file.length) → c'.file.length = c.file.length

theorem Fills.refl (hcan : Canonical c.rs) (b : List UInt8) (off : Nat) : Fills c c b off fun _ => False :=
  ⟨hcan, rfl, by simp, fun _ h => h.elim, fun _ _ _ => rfl, le_refl _, fun _ => rfl⟩

/-- One absent piece is written and marked. -/
theorem fills_piece {c : CacheFile} (hcan : Canonical c.rs) {b : List UInt8} {off size : Nat}
    (hsize : size ≤ b.length) :
    Fills c ((c.writeFile (b.take size) off).written off size) b off fun p => off ≤ p ∧ p < off + size := by
  have hlen : (b.take size).length = size := by rw [length_take]; omega
  have hcan' : Canonical (c.writeFile (b.take size) off).rs := hcan
  refine ⟨canonical_written hcan' _ _, rfl, fun p => ?_, fun p hp => ?_, fun p hp hlt => ?_, ?_, fun hin => ?_⟩
  · rw [present_written hcan']
    exact or_congr Iff.rfl (by omega)
  · have hget : (pwrite c.file (b.take size) off)[p]? = (b.take size)[p - off]? :=
      getElem?_pwrite_of_mem hp.1 (by omega)
    rw [getElem?_take_of_lt (by omega)] at hget
    exact hget
  · exact getElem?_pwrite_of_lt (by omega) hlt
  · change c.file.length ≤ (pwrite c.file (b.take size) off).length
    by_cases hb : b.take size = []
    · rw [hb, pwrite_nil]
    · rw [length_pwrite hb]
      omega
  · change (pwrite c.file (b.take size) off).length = c.file.length
    by_cases hb : b.take size = []
    · rw [hb, pwrite_nil]
    · have hpos : 0 < size := by
        rw [← hlen]
        exact length_pos_iff.mpr hb
      have hlast := hin (off + size - 1) ⟨by omega, by omega⟩
      rw [length_pwrite hb, hlen]
      omega

variable {filled filled' : Nat → Prop}

/-- Two downloads one behind the other. -/
theorem Fills.trans {c₁ c₂ c₃ : CacheFile}
    (h₁ : Fills c₁ c₂ b off filled) (h₂ : Fills c₂ c₃ (b.drop size) (off + size) filled') (hsize : size ≤ b.length)
    (hin : ∀ p, filled p → off ≤ p ∧ p < off + size) (hin' : ∀ p, filled' p → off + size ≤ p) :
    Fills c₁ c₃ b off fun p => filled p ∨ filled' p := by
  refine ⟨h₂.canonical, h₂.size.trans h₁.size, fun p => ?_, fun p hp => ?_, fun p hp hlt => ?_, ?_, fun hlen => ?_⟩
  · rw [h₂.present, h₁.present, or_assoc]
  · rcases hp with hp | hp
    · have hrange := hin p hp
      have hnot : ¬ filled' p := fun h => by
        have := hin' p h
        omega
      have hget := h₁.new p hp
      have hlt : p < c₂.file.length := by
        by_contra hge
        rw [getElem?_eq_none (by omega), getElem?_eq_getElem (by omega)] at hget
        simp at hget
      rw [h₂.old p hnot hlt, hget]
    · have hle := hin' p hp
      rw [h₂.new p hp, getElem?_drop]
      congr 1
      omega
  · obtain ⟨hp₁, hp₂⟩ := not_or.mp hp
    rw [h₂.old p hp₂ (Nat.lt_of_lt_of_le hlt h₁.grows), h₁.old p hp₁ hlt]
  · exact Nat.le_trans h₁.grows h₂.grows
  · have hl₁ := h₁.within fun p hp => hlen p (.inl hp)
    rw [h₂.within fun p hp => by rw [hl₁]; exact hlen p (.inr hp), hl₁]

theorem Fills.congr {c' : CacheFile}
    (h : Fills c c' b off filled) (hiff : ∀ p, filled p ↔ filled' p) : Fills c c' b off filled' := by
  obtain rfl : filled = filled' := funext fun p => propext (hiff p)
  exact h

/-- The first piece of a tiling that begins at a place in the file, and the rest. -/
theorem exists_piece {rs : List Range} {fs : List FoundRange} {f : FoundRange} {b : List UInt8} {off : Nat}
    (h : Tiling rs off (off + b.length) (f :: fs)) : ∃ size : Nat, f.r.pos = off ∧ f.r.size = size ∧ size ≤ b.length ∧
      Tiling rs (off + size : Nat) ((off + size : Nat) + (b.drop size).length) fs := by
  obtain ⟨hpos, hsize, hstop, _, htail⟩ := h
  obtain ⟨size, hnat⟩ : ∃ size : Nat, f.r.size = size := ⟨f.r.size.toNat, by omega⟩
  rw [Range.stop, hpos, hnat] at hstop htail
  refine ⟨size, hpos, hnat, by omega, ?_⟩
  have hrest : ((off + size : Nat) : Int) + (b.drop size).length = off + b.length := by
    rw [length_drop]
    omega
  rwa [hrest, Int.natCast_add]

/-- By induction on the pieces: every absent one is filled, and the offsets never disagree. -/
theorem downloadLoop_spec {rs : List Range} : ∀ {fs : List FoundRange} {d : Downloaded} {b : List UInt8} {off : Nat},
    Canonical d.cache.rs → Tiling rs off (off + b.length) fs →
    (downloadLoop fs d b off).err = d.err ∧ (downloadLoop fs d b off).n = d.n + b.length ∧
      Fills d.cache (downloadLoop fs d b off).cache b off fun p => ∃ f ∈ fs, f.present = false ∧ f.r.Has p
  | [], d, b, off, hcan, htile => by
    simp only [Tiling] at htile
    refine ⟨rfl, ?_, (Fills.refl hcan b off).congr (by simp)⟩
    simp only [downloadLoop]
    omega
  | f :: fs, d, b, off, hcan, htile => by
    obtain ⟨size, hpos, hnat, hle, htail'⟩ := exists_piece htile
    have hhas : ∀ p : Nat, f.r.Has p ↔ off ≤ p ∧ p < off + size := by
      intro p
      rw [Range.Has, Range.stop, hpos, hnat]
      omega
    have hbehind : ∀ p : Nat, (∃ g ∈ fs, g.present = false ∧ g.r.Has p) → off + size ≤ p := by
      intro p hp
      have := (htail'.absent_iff.mp hp).1
      omega
    rw [downloadLoop, if_neg (by rw [hpos]; simp), hnat]
    simp only [Int.toNat_natCast]
    cases hpres : f.present with
    | true =>
      simp only [↓reduceIte]
      obtain ⟨ih₁, ih₂, ih₃⟩ := @downloadLoop_spec rs fs { d with n := d.n + size, skipped := d.skipped + size }
        (b.drop size) (off + size) hcan htail'
      refine ⟨ih₁, ?_, ?_⟩
      · rw [ih₂, length_drop]
        simp only
        omega
      · refine ((Fills.refl hcan b off).trans ih₃ hle (fun p h => h.elim) hbehind).congr fun p => ?_
        simp [hpres]
    | false =>
      simp only [Bool.false_eq_true, ↓reduceIte]
      have hpiece := @fills_piece d.cache hcan b off size hle
      obtain ⟨ih₁, ih₂, ih₃⟩ := @downloadLoop_spec rs fs
        { d with cache := (d.cache.writeFile (b.take size) off).written off size, n := d.n + size }
        (b.drop size) (off + size) hpiece.canonical htail'
      refine ⟨ih₁, ?_, ?_⟩
      · rw [ih₂, length_drop]
        simp only
        omega
      · refine (hpiece.trans ih₃ hle (fun p h => h) hbehind).congr fun p => ?_
        simp [hpres, hhas]

/-- A download succeeds, fills in its bytes where nothing is present, and changes nothing else. -/
theorem writeAtNoOverwrite_spec (hcan : Canonical c.rs) (b : List UInt8) (off : Nat) :
    (c.writeAtNoOverwrite b off).err = none ∧ (c.writeAtNoOverwrite b off).n = b.length ∧
      Fills c (c.writeAtNoOverwrite b off).cache b off (c.Filled off b.length) := by
  have htile : Tiling c.rs off (off + b.length) (findAll c.rs ⟨off, b.length⟩) :=
    findAll_spec (r := ⟨off, b.length⟩) hcan (Int.natCast_nonneg _)
  obtain ⟨herr, hn, hfills⟩ := @downloadLoop_spec c.rs _ { cache := c } b off hcan htile
  refine ⟨herr, hn.trans (Nat.zero_add _), hfills.congr fun p => ?_⟩
  rw [htile.absent_iff, Filled, Present, Int.ofNat_le, ← Int.natCast_add, Int.ofNat_lt]

end CacheFile

end ZClone.Vfs
