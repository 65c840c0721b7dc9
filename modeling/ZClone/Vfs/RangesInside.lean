import ZClone.Vfs.CacheFile

/-!
# The ranges of a cache item lie inside its file

- `Good`: the ranges are canonical and inside the file.
- A growing `Truncate` marks from the old end on by the new size and not up to it, and an empty write behind the end
  marks a gap that no byte of the file fills. All other operations keep `Good` (`Change.good_iff`), so that the ranges
  of a run stay inside the file just as long as no such step is made (`good_run_iff`).
-/

namespace ZClone.Vfs

open File Ranges CacheFile List

/-- A call on an open item. A write that fails or is short is one of the bytes that were written. -/
inductive Change where
  | writeAt (b : List UInt8) (off : Nat)
  | truncate (size : Int)
  | writeAtNoOverwrite (b : List UInt8) (off : Nat)

def Change.run (c : CacheFile) : Change → CacheFile
  | .writeAt b off => c.writeAt b off
  | .truncate size => c.truncate size
  | .writeAtNoOverwrite b off => (c.writeAtNoOverwrite b off).cache

structure Good (c : CacheFile) : Prop where
  canonical : Canonical c.rs
  inside : ∀ r ∈ c.rs, 0 ≤ r.pos ∧ r.stop ≤ c.file.length

/-- No growing of a file that is not empty, and no empty write behind both the end of the file and `info.Size`. -/
def Change.Safe (c : CacheFile) : Change → Prop
  | .writeAt b off => b ≠ [] ∨ (off : Int) ≤ c.size ∨ off ≤ c.file.length
  | .truncate size => size ≤ c.file.length ∨ c.file = []
  | .writeAtNoOverwrite _ _ => True

variable {c : CacheFile}

/-- Nothing is marked in front of the file. -/
def NoneBefore (rs : List Range) : Prop := ∀ p, Covers rs p → 0 ≤ p

theorem NoneBefore.insert {rs : List Range} (h : NoneBefore rs) (hcan : Canonical rs) {r : Range} (hr : 0 ≤ r.pos) :
    NoneBefore (insert rs r) := by
  intro p hp
  rcases (covers_insert hcan r p).mp hp with hp | hp
  · exact h p hp
  · exact hr.trans hp.1

/-- `Good` by the bytes that are marked. -/
theorem good_iff : Good c ↔ Canonical c.rs ∧ NoneBefore c.rs ∧ ∀ p, c.Present p → p < c.file.length := by
  constructor
  · refine fun h => ⟨h.canonical, ?_, ?_⟩
    · rintro p ⟨r, hr, hlow, -⟩
      exact (h.inside r hr).1.trans hlow
    · rintro p ⟨r, hr, -, hhigh⟩
      have hstop := (h.inside r hr).2
      omega
  · rintro ⟨hcan, hbefore, hpresent⟩
    refine ⟨hcan, fun r hr => ?_⟩
    have hpos := hcan.pos r hr
    have hstart := hbefore r.pos ⟨r, hr, le_rfl, by rw [Range.stop]; omega⟩
    obtain ⟨last, hlast⟩ : ∃ n : Nat, (n : Int) = r.stop - 1 := ⟨(r.stop - 1).toNat, by rw [Range.stop]; omega⟩
    have hend := hpresent last ⟨r, hr, by rw [hlast, Range.stop]; omega, by omega⟩
    exact ⟨hstart, by omega⟩

theorem noneBefore_downloadLoop : ∀ {fs : List FoundRange} {d : Downloaded} {b : List UInt8} {off : Nat},
    Canonical d.cache.rs → NoneBefore d.cache.rs → NoneBefore (downloadLoop fs d b off).cache.rs
  | [], _, _, _, _, h => h
  | f :: fs, d, b, off, hcan, h => by
    rw [downloadLoop]
    split
    · exact h
    · split
      · exact noneBefore_downloadLoop hcan h
      · exact noneBefore_downloadLoop (canonical_insert hcan _) (h.insert hcan (Int.natCast_nonneg off))

theorem good_writeAtNoOverwrite (h : Good c) (b : List UInt8) (off : Nat) :
    Good (c.writeAtNoOverwrite b off).cache := by
  obtain ⟨hcan, hbefore, hpresent⟩ := good_iff.mp h
  obtain ⟨-, -, hfills⟩ := writeAtNoOverwrite_spec hcan b off
  refine good_iff.mpr ⟨hfills.canonical, noneBefore_downloadLoop hcan hbefore, fun p hp => ?_⟩
  rcases (hfills.present p).mp hp with hp | hp
  · exact (hpresent p hp).trans_le hfills.grows
  · -- a byte that is filled in can be read
    have hnew := hfills.new p hp
    have hin : p - off < b.length := by
      have := hp.1
      have := hp.2.1
      omega
    rw [getElem?_eq_getElem hin] at hnew
    exact (List.getElem?_eq_some_iff.mp hnew).1

theorem good_truncate_iff (h : Good c) (size : Int) : Good (c.truncate size) ↔ size ≤ c.file.length ∨ c.file = [] := by
  obtain ⟨hcan, hbefore, hpresent⟩ := good_iff.mp h
  by_cases hneg : size < 0
  · have hnone : intersection c.rs ⟨0, size⟩ = [] := by
      rw [intersection, findAll_of_nonpos _ (Int.le_of_lt hneg)]
      split_ifs with hempty
      · exact List.isEmpty_iff.mp hempty
      · rfl
    have htruncate : c.truncate size = { c with size := c.file.length, rs := [] } := by
      simp only [truncate, truncateFile, if_pos hneg]
      rw [if_neg (by omega), if_pos (by omega), hnone]
    rw [htruncate]
    exact iff_of_true ⟨canonical_nil, by simp⟩ (.inl (by omega))
  · obtain ⟨n, rfl⟩ : ∃ n : Nat, size = n := ⟨size.toNat, by omega⟩
    rcases Nat.lt_trichotomy c.file.length n with hgrow | hsame | hshrink
    · rw [truncate_grow hgrow]
      have hpres := @present_written { c with file := resize c.file n, size := n } hcan c.file.length n
      rw [good_iff]
      constructor
      · rintro ⟨-, -, hin⟩
        -- the last byte that is marked
        have hlast := hin (c.file.length + n - 1) ((hpres _).mpr (.inr ⟨by omega, by omega⟩))
        rw [written_file, length_resize] at hlast
        exact .inr (length_eq_zero_iff.mp (by omega))
      · intro hsafe
        have hempty : c.file.length = 0 := hsafe.elim (fun hle => by omega) fun hnil => by rw [hnil]; rfl
        refine ⟨canonical_written hcan _ _, hbefore.insert hcan (Int.natCast_nonneg _), fun p hp => ?_⟩
        rw [written_file, length_resize]
        rcases (hpres p).mp hp with hp | hp
        · have := hpresent p hp
          omega
        · omega
    · rw [truncate_same hsame]
      refine iff_of_true (good_iff.mpr ⟨hcan, hbefore, fun p hp => ?_⟩) (.inl (by omega))
      rw [length_resize, ← hsame]
      exact hpresent p hp
    · rw [truncate_shrink hshrink]
      obtain ⟨hcan', hcovers⟩ := intersection_spec hcan ⟨0, n⟩
      refine iff_of_true (good_iff.mpr ⟨hcan', fun p hp => ?_, fun p hp => ?_⟩)
        (.inl (by omega))
      · exact hbefore p ((hcovers p).mp hp).1
      · rw [length_resize]
        have hin := ((hcovers p).mp hp).2.2
        simp only [Range.stop] at hin
        omega

section

variable (h : Good c) (hsize : 0 ≤ c.size)

include h hsize

theorem good_writeAt_iff (b : List UInt8) (off : Nat) :
    Good (c.writeAt b off) ↔ b ≠ [] ∨ (off : Int) ≤ c.size ∨ off ≤ c.file.length := by
  obtain ⟨hcan, hbefore, hpresent⟩ := good_iff.mp h
  obtain ⟨hcan', hfile, -, hpres⟩ := @markWritten_spec (c.writeFile b off) hcan off b.length
  have hlength : (c.writeAt b off).file.length = (pwrite c.file b off).length := congrArg length hfile
  have hpres' : ∀ p, (c.writeAt b off).Present p ↔
      c.Present p ∨ (off ≤ p ∧ p < off + b.length) ∨ (c.size ≤ p ∧ p < off) := hpres
  have hbefore' : NoneBefore (c.writeAt b off).rs := by
    have hwritten := hbefore.insert hcan (r := ⟨off, b.length⟩) (Int.natCast_nonneg off)
    rw [writeAt, markWritten, (growSize_spec _ _).1, markGap]
    split
    · exact hwritten.insert (canonical_insert hcan _) hsize
    · exact hwritten
  rw [good_iff, hlength]
  refine ⟨fun hgood => ?_, fun hsafe => ⟨hcan', hbefore', fun p hp => ?_⟩⟩
  · by_contra hunsafe
    push Not at hunsafe
    obtain ⟨rfl, hbehind, hlong⟩ := hunsafe
    -- the last byte of the gap
    have hlast := hgood.2.2 (off - 1) ((hpres' _).mpr (.inr (.inr ⟨by omega, by omega⟩)))
    rw [pwrite_nil] at hlast
    omega
  · by_cases hb : b = []
    · subst hb
      rw [pwrite_nil]
      rcases (hpres' p).mp hp with hp | hp | hp
      · exact hpresent p hp
      · simp at hp
        omega
      · rcases hsafe with hne | hle | hle
        · exact absurd rfl hne
        · omega
        · omega
    · rw [length_pwrite hb]
      rcases (hpres' p).mp hp with hp | hp | hp
      · have := hpresent p hp
        omega
      · omega
      · omega

/-- A call keeps the ranges inside the file just if it is safe. -/
theorem Change.good_iff (change : Change) : Good (change.run c) ↔ change.Safe c := by
  cases change with
  | writeAt b off => exact good_writeAt_iff h hsize b off
  | truncate size => exact good_truncate_iff h size
  | writeAtNoOverwrite b off => exact iff_of_true (good_writeAtNoOverwrite h b off) trivial

theorem Change.size_nonneg (change : Change) : 0 ≤ (change.run c).size := by
  cases change with
  | writeAt b off =>
    have hmax := (@markWritten_spec (c.writeFile b off) h.canonical off b.length).2.2.1
    change 0 ≤ ((c.writeFile b off).markWritten off b.length).size
    rw [hmax, writeFile_size]
    omega
  | truncate size =>
    simp only [Change.run, CacheFile.truncate, truncateFile]
    split_ifs <;> simp <;> omega
  | writeAtNoOverwrite b off =>
    change 0 ≤ (c.writeAtNoOverwrite b off).cache.size
    rw [(writeAtNoOverwrite_spec h.canonical b off).2.2.size]
    exact hsize

end

/-- The ranges are inside the file after every call. -/
def AllGood : List Change → CacheFile → Prop
  | [], _ => True
  | change :: changes, c => Good (change.run c) ∧ AllGood changes (change.run c)

/-- Every call is safe in the state it is made in. -/
def AllSafe : List Change → CacheFile → Prop
  | [], _ => True
  | change :: changes, c => change.Safe c ∧ AllSafe changes (change.run c)

theorem good_run_iff (changes : List Change) (c : CacheFile) (h : Good c) (hsize : 0 ≤ c.size) :
    AllGood changes c ↔ AllSafe changes c := by
  induction changes generalizing c with
  | nil => exact Iff.rfl
  | cons change changes ih =>
    have hstep := change.good_iff h hsize
    rw [AllGood, AllSafe, ← hstep]
    exact and_congr_right fun hgood => ih _ hgood (change.size_nonneg h hsize)

/-- A file that is written, cut and written again. -/
theorem good_run_shrink : AllGood [.writeAt [1, 2, 3] 0, .truncate 1, .writeAt [4] 5] ⟨[], [], 0⟩ := by
  refine (good_run_iff _ _ ⟨canonical_nil, by simp⟩ le_rfl).mpr ⟨.inl (by simp), ?_, .inl (by simp), trivial⟩
  exact .inl (by decide)

/-- A file of two bytes that is made three bytes long is marked up to five. -/
theorem truncate_marks_beyond : ¬AllGood [.truncate 3] ⟨[1, 2], [], 2⟩ ∧
    (Change.truncate 3).run ⟨[1, 2], [], 2⟩ = ⟨[1, 2, 0], [⟨2, 3⟩], 3⟩ := by
  have hrun : (Change.truncate 3).run ⟨[1, 2], [], 2⟩ = ⟨[1, 2, 0], [⟨2, 3⟩], 3⟩ := by decide +kernel
  refine ⟨fun h => ?_, hrun⟩
  have hgood := h.1
  rw [hrun] at hgood
  exact absurd (hgood.inside ⟨2, 3⟩ (by simp)).2 (by decide)

end ZClone.Vfs
