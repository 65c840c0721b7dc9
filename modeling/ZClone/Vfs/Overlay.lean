import ZClone.Vfs.Item

/-!
# The cache file as the remote object with the user's writes on top

- `Op.reference` applies the user's writes to the remote content, `Op.run` applies all operations to the cache file.
- `Tracks`: the file reads as the reference wherever it is present, and the reference is still the remote object
  elsewhere. Writes, truncations and downloads inside the file keep it.
- `cache_reads_as_reference_iff`: the cache file is right after every step exactly if no download fills in a byte behind
  the end of the file.
-/

namespace ZClone.Vfs

open File Ranges CacheFile List

/-- An operation on an open item; a download carries the remote bytes of a range. -/
inductive Op where
  | writeAt (b : List UInt8) (off : Nat)
  | truncate (size : Nat)
  | download (off len : Nat)

/-- The bytes a download of the remote object carries. -/
def carried (remote : List UInt8) (off len : Nat) : List UInt8 := (remote.drop off).take len

/-- What the operation does to the content the user sees. -/
def Op.reference (ref : List UInt8) : Op → List UInt8
  | .writeAt b off => pwrite ref b off
  | .truncate size => resize ref size
  | .download _ _ => ref

/-- A panic has no result. -/
def Op.run (remote : List UInt8) (c : CacheFile) : Op → Option CacheFile
  | .writeAt b off => some (Item.writeAt c b off)
  | .truncate size => Item.truncate c size
  | .download off len => (Item.writeAtNoOverwrite c (carried remote off len) off).map (·.cache)

/-- The operation with unbounded integers. -/
def Op.apply (remote : List UInt8) (c : CacheFile) : Op → CacheFile
  | .writeAt b off => c.writeAt b off
  | .truncate size => c.truncate size
  | .download off len => (c.writeAtNoOverwrite (carried remote off len) off).cache

/-- The offsets and sizes are `int64`; and so is the sum of the old and the new size of a file that grows, up to which
it is marked. -/
def Op.Bounded (ref : List UInt8) : Op → Prop
  | .writeAt b off => off + b.length < 2 ^ 63
  | .truncate size => size < 2 ^ 63 ∧ (ref.length < size → ref.length + size < 2 ^ 63)
  | .download off _ => off < 2 ^ 63

/-- An item just opened: a file of holes as long as the remote object. -/
def opened (remote : List UInt8) : CacheFile := { file := List.replicate remote.length 0, size := remote.length }

/-- Every byte marked present is the reference's, and the file is as long as the reference. A byte marked behind the end
of both is neither in the file nor in the reference. -/
def ReadsAs (ref : List UInt8) (c : CacheFile) : Prop :=
  (∀ p, c.Present p → c.file[p]? = ref[p]?) ∧ c.file.length = ref.length

/-- The invariant of an item. -/
structure Tracks (remote ref : List UInt8) (c : CacheFile) : Prop where
  canonical : Canonical c.rs
  length : c.file.length = ref.length
  size : (ref.length : Int) ≤ c.size
  /-- What lies between the end of the file and `info.Size` is marked. -/
  beyond : ∀ p, ref.length ≤ p → (p : Int) < c.size → c.Present p
  present : ∀ p, c.Present p → c.file[p]? = ref[p]?
  /-- What is not marked the user has not touched. -/
  absent : ∀ p, p < ref.length → ¬ c.Present p → ref[p]? = remote[p]?

variable {remote ref file : List UInt8} {c : CacheFile} {p size off len : Nat}

theorem tracks_opened (remote : List UInt8) : Tracks remote remote (opened remote) where
  canonical := canonical_nil
  length := by simp [opened]
  size := le_refl _
  beyond p hle hlt := by
    simp only [opened] at hlt
    omega
  present p hp := absurd hp (covers_nil p)
  absent _ _ _ := rfl

/-! ## The user's operations -/

theorem getElem?_pwrite_congr {b : List UInt8} (hlen : file.length = ref.length)
    (hp : file[p]? = ref[p]? ∨ (off ≤ p ∧ p < off + b.length)) : (pwrite file b off)[p]? = (pwrite ref b off)[p]? := by
  by_cases hin : off ≤ p ∧ p < off + b.length
  · rw [getElem?_pwrite_of_mem hin.1 hin.2, getElem?_pwrite_of_mem hin.1 hin.2]
  · have hp := hp.resolve_right hin
    by_cases hlt : p < ref.length
    · rw [getElem?_pwrite_of_lt (by omega) (by omega), getElem?_pwrite_of_lt (by omega) hlt, hp]
    · by_cases hb : b = []
      · rw [hb, pwrite_nil, pwrite_nil, hp]
      · by_cases hgap : p < off
        · rw [getElem?_pwrite_gap hb hgap (by omega), getElem?_pwrite_gap hb hgap (by omega)]
        · rw [getElem?_eq_none (by rw [length_pwrite hb]; omega),
            getElem?_eq_none (by rw [length_pwrite hb]; omega)]

theorem length_pwrite_congr (b : List UInt8) (off : Nat) (hlen : file.length = ref.length) :
    (pwrite file b off).length = (pwrite ref b off).length := by
  by_cases hb : b = []
  · rw [hb, pwrite_nil, pwrite_nil, hlen]
  · rw [length_pwrite hb, length_pwrite hb, hlen]

theorem Tracks.writeAt (h : Tracks remote ref c) (b : List UInt8) (off : Nat) :
    Tracks remote (pwrite ref b off) (c.writeAt b off) := by
  obtain ⟨hcan, hfile, hsize, hpres⟩ := @markWritten_spec (c.writeFile b off) h.canonical off b.length
  have hpres' : ∀ p, (c.writeAt b off).Present p ↔
      c.Present p ∨ (off ≤ p ∧ p < off + b.length) ∨ (c.size ≤ p ∧ p < off) := hpres
  have hfile' : (c.writeAt b off).file = pwrite c.file b off := hfile
  have hsize' : (c.writeAt b off).size = max c.size (off + b.length) := hsize
  have hlen := h.size
  -- the file ends where it did, or with the write
  have hend : (pwrite ref b off).length = ref.length ∧ b = [] ∨
      (pwrite ref b off).length = max ref.length (off + b.length) := by
    by_cases hb : b = []
    · exact .inl ⟨by rw [hb, pwrite_nil], hb⟩
    · exact .inr (length_pwrite hb)
  refine ⟨hcan, ?_, ?_, fun p hle hlt => ?_, fun p hp => ?_, fun p hlt hp => ?_⟩
  · rw [hfile', length_pwrite_congr b off h.length]
  · rw [hsize']
    rcases hend with ⟨he, -⟩ | he <;> omega
  · rw [hpres']
    rw [hsize'] at hlt
    by_cases hin : (p : Int) < c.size
    · exact .inl (h.beyond p (by omega) hin)
    · rcases hend with ⟨-, rfl⟩ | he
      · simp only [length_nil] at hlt ⊢
        omega
      · omega
  · rw [hfile']
    rcases (hpres' p).mp hp with hp | hp | hp
    · exact getElem?_pwrite_congr h.length (.inl (h.present p hp))
    · exact getElem?_pwrite_congr h.length (.inr hp)
    · refine getElem?_pwrite_congr h.length (.inl ?_)
      rw [getElem?_eq_none (by rw [h.length]; omega), getElem?_eq_none (by omega)]
  · rw [hpres'] at hp
    push Not at hp
    by_cases hold : p < ref.length
    · rw [getElem?_pwrite_of_lt (by omega) hold]
      exact h.absent p hold hp.1
    · -- a new byte lies in the write or in the gap in front of it
      have hnone := mt (h.beyond p (by omega)) hp.1
      rcases hend with ⟨he, -⟩ | he <;> omega

theorem getElem?_resize_of_lt (hp : p < size) (hlen : p < ref.length) : (resize ref size)[p]? = ref[p]? := by
  rw [getElem?_resize, if_pos hp, getElem?_eq_getElem hlen]
  rfl

/-- The file gets a new size, and a byte is marked if it was or is new. -/
theorem Tracks.resized (h : Tracks remote ref c) {rs : List Range} (hcan : Canonical rs)
    (hpresent : ∀ p : Nat, Covers rs p → c.Present p ∨ ref.length ≤ p)
    (habsent : ∀ p : Nat, p < size → ¬ Covers rs p → p < ref.length ∧ ¬ c.Present p) :
    Tracks remote (resize ref size) { file := resize c.file size, rs := rs, size := size } := by
  refine ⟨hcan, by simp, by simp, fun p hle hlt => ?_, fun p hp => ?_, fun p hlt hp => ?_⟩
  · rw [length_resize] at hle
    simp only at hlt
    omega
  · rw [getElem?_resize, getElem?_resize]
    rcases hpresent p hp with hp | hge
    · rw [h.present p hp]
    · rw [getElem?_eq_none (by rw [h.length]; omega), getElem?_eq_none hge]
  · rw [length_resize] at hlt
    obtain ⟨hold, hnot⟩ := habsent p hlt hp
    rw [getElem?_resize_of_lt hlt hold]
    exact h.absent p hold hnot

theorem Tracks.truncate (h : Tracks remote ref c) (size : Nat) : Tracks remote (resize ref size) (c.truncate size) := by
  have hlen := h.length
  rcases Nat.lt_trichotomy c.file.length size with hgrow | hsame | hshrink
  · -- what is new reads as zeros and is marked
    rw [truncate_grow hgrow]
    have hpres := @present_written { c with file := resize c.file size, size := size } h.canonical c.file.length size
    refine h.resized (canonical_written h.canonical _ _) (fun p hp => ((hpres p).mp hp).imp_right fun hp => by omega)
      fun p hlt hp => ?_
    obtain ⟨hnot, hout⟩ := not_or.mp (mt (hpres p).mpr hp)
    exact ⟨by omega, hnot⟩
  · rw [truncate_same hsame]
    exact h.resized h.canonical (fun _ => .inl) fun p hlt hp => ⟨by omega, hp⟩
  · rw [truncate_shrink hshrink]
    obtain ⟨hcan, hcovers⟩ := intersection_spec h.canonical ⟨0, size⟩
    refine h.resized hcan (fun p hp => .inl ((hcovers p).mp hp).1) fun p hlt hp =>
      ⟨by omega, fun hin => hp ((hcovers p).mpr ⟨hin, ?_⟩)⟩
    simp only [Range.Has, Range.stop]
    omega

/-! ## Downloads -/

theorem getElem?_carried {remote : List UInt8} (hlo : off ≤ p) (hhi : p < off + (carried remote off len).length) :
    (carried remote off len)[p - off]? = remote[p]? := by
  rw [carried, length_take, length_drop] at hhi
  rw [carried, getElem?_take_of_lt (by omega), getElem?_drop]
  congr 1
  omega

/-- The bytes the download fills in lie inside the file. -/
def StaysInside (remote ref : List UInt8) (c : CacheFile) (off len : Nat) : Prop :=
  ∀ p, c.Filled off (carried remote off len).length p → p < ref.length

theorem Tracks.download (h : Tracks remote ref c)
    (hin : StaysInside remote ref c off len) :
    Tracks remote ref (c.writeAtNoOverwrite (carried remote off len) off).cache := by
  obtain ⟨-, -, hfills⟩ := writeAtNoOverwrite_spec h.canonical (carried remote off len) off
  have hlen := hfills.within fun p hp => by
    rw [h.length]
    exact hin p hp
  refine ⟨hfills.canonical, hlen.trans h.length, ?_, fun p hle hlt => ?_, fun p hp => ?_, fun p hlt hp => ?_⟩
  · rw [hfills.size]
    exact h.size
  · rw [hfills.size] at hlt
    exact (hfills.present p).mpr (.inl (h.beyond p hle hlt))
  · by_cases hfill : c.Filled off (carried remote off len).length p
    · -- an absent byte of the reference is still the remote one
      rw [hfills.new p hfill, getElem?_carried hfill.1 hfill.2.1]
      exact (h.absent p (hin p hfill) hfill.2.2).symm
    · have hold := ((hfills.present p).mp hp).resolve_right hfill
      by_cases hlt : p < c.file.length
      · rw [hfills.old p hfill hlt]
        exact h.present p hold
      · rw [getElem?_eq_none (by omega), getElem?_eq_none (by rw [← h.length]; omega)]
  · exact h.absent p hlt fun hold => hp ((hfills.present p).mpr (.inl hold))

/-- A byte filled in behind the end makes the file longer than the reference. -/
theorem not_readsAs_of_outside (h : Tracks remote ref c) (hout : ¬ StaysInside remote ref c off len) :
    ¬ ReadsAs ref (c.writeAtNoOverwrite (carried remote off len) off).cache := by
  rw [StaysInside] at hout
  push Not at hout
  obtain ⟨p, hfill, hge⟩ := hout
  obtain ⟨-, -, hfills⟩ := writeAtNoOverwrite_spec h.canonical (carried remote off len) off
  rintro ⟨-, hlen⟩
  have hget := hfills.new p hfill
  have hbound := hfill.2.1
  rw [getElem?_eq_none (by omega), getElem?_eq_getElem (by have := hfill.1; omega)] at hget
  simp at hget

/-! ## Runs -/

/-- The operation is not a download that fills in bytes behind the end. -/
def Op.Inside (remote ref : List UInt8) (c : CacheFile) : Op → Prop
  | .download off len => StaysInside remote ref c off len
  | _ => True

theorem Tracks.step (h : Tracks remote ref c) {op : Op}
    (hin : op.Inside remote ref c) : Tracks remote (op.reference ref) (op.apply remote c) := by
  cases op with
  | writeAt b off => exact h.writeAt b off
  | truncate size => exact h.truncate size
  | download off len => exact h.download hin

/-- Nothing overflows. -/
theorem Tracks.run_eq (h : Tracks remote ref c) (hsmall : Item.Small c) (hremote : remote.length < 2 ^ 63) {op : Op}
    (hbounded : op.Bounded ref) : op.run remote c = some (op.apply remote c) ∧ Item.Small (op.apply remote c) := by
  cases op with
  | writeAt b off =>
    obtain ⟨heq, hsmall⟩ := Item.writeAt_eq hsmall hbounded
    exact ⟨congrArg some heq, hsmall⟩
  | truncate size => exact Item.truncate_eq hsmall hbounded.1 (by rw [h.length]; exact hbounded.2)
  | download off len =>
    have hbound : off + (carried remote off len).length < 2 ^ 63 := by
      have hoff : off < 2 ^ 63 := hbounded
      rw [carried, length_take, length_drop]
      omega
    obtain ⟨heq, hsmall⟩ := Item.writeAtNoOverwrite_eq hsmall hbound
    exact ⟨by rw [Op.run, heq]; rfl, hsmall⟩

/-- A property of the reference and the cache file after every step of a run. -/
def AfterEveryStep (P : List UInt8 → CacheFile → Prop) (remote : List UInt8) : List Op → List UInt8 → CacheFile → Prop
  | [], _, _ => True
  | op :: ops, ref, c => ∃ c', op.run remote c = some c' ∧ P (op.reference ref) c' ∧
    AfterEveryStep P remote ops (op.reference ref) c'

/-- No download of a run fills in bytes behind the end. -/
def AllInside (remote : List UInt8) : List Op → List UInt8 → CacheFile → Prop
  | [], _, _ => True
  | op :: ops, ref, c => op.Inside remote ref c ∧ ∀ c' ∈ op.run remote c, AllInside remote ops (op.reference ref) c'

def AllBounded : List Op → List UInt8 → Prop
  | [], _ => True
  | op :: ops, ref => op.Bounded ref ∧ AllBounded ops (op.reference ref)

theorem afterEveryStep_iff (hremote : remote.length < 2 ^ 63) : ∀ {ops : List Op} {ref : List UInt8} {c : CacheFile},
    Tracks remote ref c → Item.Small c → AllBounded ops ref →
    (AfterEveryStep ReadsAs remote ops ref c ↔ AllInside remote ops ref c)
  | [], _, _, _, _, _ => Iff.rfl
  | op :: ops, ref, c, h, hsmall, ⟨hbounded, hrest⟩ => by
    obtain ⟨hrun, hsmall⟩ := h.run_eq hsmall hremote hbounded
    rw [AfterEveryStep, AllInside, hrun]
    simp only [Option.some.injEq, exists_eq_left', Option.mem_some_iff, forall_eq']
    by_cases hin : op.Inside remote ref c
    · have hnext := h.step hin
      rw [afterEveryStep_iff hremote hnext hsmall hrest]
      exact and_congr_left' ⟨fun _ => hin, fun _ => ⟨hnext.present, hnext.length⟩⟩
    · refine ⟨fun hall => absurd hall.1 ?_, fun hall => absurd hall.1 hin⟩
      cases op with
      | writeAt | truncate => exact absurd trivial hin
      | download off len => exact not_readsAs_of_outside h hin

theorem small_opened (hremote : remote.length < 2 ^ 63) : Item.Small (opened remote) :=
  ⟨canonical_nil, nofun, Int.natCast_nonneg _, by simp only [opened]; omega⟩

/-- The cache file of an open item reads as the remote object with the user's writes on top, after every step of a run
that stays below `2 ^ 63`, exactly if no download of the run fills in a byte behind the end of the file. -/
theorem cache_reads_as_reference_iff (remote : List UInt8) (ops : List Op) (hremote : remote.length < 2 ^ 63)
    (hbounded : AllBounded ops remote) :
    AfterEveryStep ReadsAs remote ops remote (opened remote) ↔ AllInside remote ops remote (opened remote) :=
  afterEveryStep_iff hremote (tracks_opened remote) (small_opened hremote) hbounded

/-- A file is cut short, written to behind its end, and filled in from the remote object. -/
theorem cache_reads_as_reference_four : AfterEveryStep ReadsAs [1, 2, 3]
    [.truncate 2, .writeAt [9] 3, .download 0 2, .truncate 5] [1, 2, 3] (opened [1, 2, 3]) := by
  refine (cache_reads_as_reference_iff _ _ (by decide) ?_).mpr ?_
  · exact ⟨⟨by decide, by decide⟩, show 3 + 1 < 2 ^ 63 by decide, show 0 < 2 ^ 63 by decide,
      ⟨by decide, fun _ => by decide⟩, trivial⟩
  · refine ⟨trivial, ?_⟩
    rintro _ ⟨⟩
    refine ⟨trivial, ?_⟩
    rintro _ ⟨⟩
    refine ⟨?_, ?_⟩
    · rintro p ⟨-, hlt, -⟩
      exact Nat.lt_of_lt_of_le hlt (by decide)
    · rintro _ ⟨⟩
      exact ⟨trivial, fun _ _ => trivial⟩

/-- A file of `2 ^ 63 - 1` bytes that had two is marked up to an end that no `int64` has. -/
def overflowed : CacheFile := ⟨resize [0, 0] (2 ^ 63 - 1), [⟨2, 2 ^ 63 - 1⟩], (2 ^ 63 - 1 : Nat)⟩

/-- A downloader still at work after a file was cut short writes behind its end and makes it longer again. In a file
that was made so long that the mark overflows, the piece found is longer than the bytes of the download. -/
theorem download_undoes_truncate : ¬ AfterEveryStep ReadsAs [1, 2] [.truncate 1, .download 1 1] [1, 2] (opened [1, 2]) ∧
    Item.truncate ⟨[0, 0], [], 2⟩ (2 ^ 63 - 1) = some overflowed ∧
      Item.writeAtNoOverwrite overflowed [3, 4] 2 = none := by
  refine ⟨?_, ?_, by decide⟩
  · rintro ⟨_, ⟨⟩, -, _, ⟨⟩, ⟨-, hlen⟩, -⟩
    exact absurd hlen (by decide)
  · rw [Item.truncate]
    simp only [truncateFile_natCast]
    rfl

end ZClone.Vfs
