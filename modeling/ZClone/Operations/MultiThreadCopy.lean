import Mathlib.Data.UInt
import Mathlib.Logic.Function.Basic
import ZClone.Operations.MultiThread

/-!
# The goroutines of a multi-thread copy

A goroutine opens the source at the range of its job, reads the chunk into memory unless buffering is off, and writes
it piece by piece; pieces of different chunks come in any order. The destination is a file that is written at offsets,
or a set of parts that are put together in the end.

- `handed` is what a goroutine hands to `WriteChunk`; `handed_eq` says that it is the chunk, whatever the range was.
- `Inv` says that what has been written of a chunk is in its place; a step keeps it because chunks do not overlap.
-/

namespace ZClone.Operations.MultiThread

open List Function

/-- One copy. Sizes are those of an `int64`. -/
structure Copy where
  src : List UInt8
  chunkSize : Nat
  usingOpenWriterAt : Bool
  srcIsLocal : Bool
  chunkWriterDoesntSeek : Bool
  streams : Int
  backendConcurrency : Int
  streamsSet : Bool
  size_pos : 0 < src.length
  size_lt : src.length < 2 ^ 63
  chunk_pos : 0 < chunkSize
  chunk_lt : chunkSize < 2 ^ 63

namespace Copy

variable (c : Copy)

def part : Nat := (partSize c.src.length c.chunkSize).toNat

def numChunks : Nat := (calculateNumChunks c.src.length c.part).toNat

def noBuffering : Bool := c.usingOpenWriterAt || c.srcIsLocal || c.chunkWriterDoesntSeek

def limit : Int := concurrency c.streams c.backendConcurrency c.streamsSet c.numChunks

def writer : WriterAt := openChunkWriterFromOpenWriterAt c.src.length c.chunkSize

def job (i : Nat) : Job := MultiThread.job c.src.length c.part i

/-- What `copyChunk` hands to `WriteChunk`, `none` when the chunk cannot be read in full. -/
def handed (i : Nat) : Option (List UInt8) :=
  let rc := RangeOption.bytes ⟨(c.job i).start, int64 ((c.job i).stop - 1)⟩ c.src
  if c.noBuffering then some rc
  else if (c.job i).size ≤ rc.length then some (rc.take (c.job i).size.toNat)
  else none

end Copy

inductive Dest where
  | file (content : List UInt8)
  | parts (part : Nat → List UInt8)

/-- A piece of a chunk, `written` bytes of which are there already. -/
def Dest.write (w : WriterAt) (chunk written : Nat) (piece : List UInt8) : Dest → Dest
  | .file content => .file (File.pwrite content piece ((w.offset chunk).toNat + written))
  | .parts part => .parts (Function.update part chunk (part chunk ++ piece))

/-- What the destination holds after `Close`. -/
def Dest.content (n : Nat) : Dest → List UInt8
  | .file content => content
  | .parts part => (List.range n).flatMap part

inductive Status where
  | writing (written : Nat)
  | succeeded
  | failed
  deriving DecidableEq

structure State where
  dest : Dest
  status : Nat → Option Status
  next : Nat

def State.set (s : State) (i : Nat) (st : Status) : State := { s with status := Function.update s.status i (some st) }

/-- How many goroutines are at work. -/
def State.active (s : State) : Nat :=
  ((List.range s.next).filter fun i => match s.status i with
    | some (.writing _) => true
    | _ => false).length

/-- A new object, or parts none of which is there yet. -/
def Copy.start (c : Copy) : State where
  dest := if c.usingOpenWriterAt then .file [] else .parts fun _ => []
  status _ := none
  next := 0

/-- `WriteChunk` of the adapter checks how much it has written; other writers take what they are given. -/
def Copy.accepts (c : Copy) (i len : Nat) : Prop := c.usingOpenWriterAt = true → (len : Int) = c.writer.bytesToWrite i

inductive Step (c : Copy) : State → State → Prop where
  /-- The loop starts the next goroutine; after a failure it may stop doing so. -/
  | launch {s : State} (hnext : s.next < c.numChunks) (hlimit : s.active < c.limit) :
      Step c s { s.set s.next (.writing 0) with next := s.next + 1 }
  | write {s : State} {i w k : Nat} {b : List UInt8} (hst : s.status i = some (.writing w)) (hb : c.handed i = some b)
      (hk : w + k ≤ b.length) :
      Step c s { s.set i (.writing (w + k)) with dest := s.dest.write c.writer i w ((b.drop w).take k) }
  | finish {s : State} {i : Nat} {b : List UInt8} (hst : s.status i = some (.writing b.length))
      (hb : c.handed i = some b)
      (haccepts : c.accepts i b.length) : Step c s (s.set i .succeeded)
  | fail {s : State} {i w : Nat} (hst : s.status i = some (.writing w)) : Step c s (s.set i .failed)

def Copy.Reachable (c : Copy) (s : State) : Prop := Relation.ReflTransGen (Step c) c.start s

def Copy.AllSucceeded (c : Copy) (s : State) : Prop := ∀ i < c.numChunks, s.status i = some .succeeded

/-! ## What is handed to the writer -/

section Handed

variable (c : Copy)

theorem Copy.plan : partSize c.src.length c.chunkSize = c.part ∧ 0 < c.part ∧ c.part ≤ c.src.length ∧
    calculateNumChunks c.src.length c.part = c.numChunks ∧ Chunks c.src.length c.part c.numChunks ∧
    calculateNumChunks c.src.length c.chunkSize = c.numChunks ∧
    (c.part = c.chunkSize ∨ c.part = c.src.length ∧ c.numChunks = 1 ∧ c.src.length < c.chunkSize) := by
  obtain ⟨p, n, hp, hpos, hps, -, hn, hchunks, hn', hcases⟩ := partSize_cases c.size_pos c.size_lt c.chunk_pos
  have hpart : c.part = p := by rw [Copy.part, hp, Int.toNat_natCast]
  have hnum : c.numChunks = n := by rw [Copy.numChunks, hpart, hn, Int.toNat_natCast]
  rw [hpart, hnum]
  exact ⟨hp, hpos, hps, hn, hchunks, hn', hcases⟩

/-- The bytes of chunk `i`. -/
def Copy.chunk (i : Nat) : List UInt8 := (c.src.drop (i * c.part)).take c.part

theorem Copy.length_chunk (i : Nat) : (c.chunk i).length = min c.part (c.src.length - i * c.part) := by
  rw [Copy.chunk, length_take, length_drop]

variable {c}

theorem Copy.handed_eq {i : Nat} (hi : i < c.numChunks) {b : List UInt8} (hb : c.handed i = some b) :
    b = c.chunk i := by
  obtain ⟨-, hpos, hle, -, hchunks, -, -⟩ := c.plan
  have hsize := c.size_lt
  have hlt := hchunks.start_lt hi
  have hnext : (i + 1) * c.part = i * c.part + c.part := by rw [Nat.add_mul, Nat.one_mul]
  have hchunk := c.length_chunk i
  unfold Copy.handed at hb
  by_cases hfits : (i + 1) * c.part < 2 ^ 63
  · -- the range ends where the chunk does
    have hjob : c.job i = _ := job_of_fits hchunks hsize hi hfits
    rw [hjob] at hb
    have hlast : int64 ((min ((i + 1) * c.part) c.src.length : Nat) - 1) =
        (min ((i + 1) * c.part) c.src.length - 1 : Nat) := by
      rw [int64_of_lt (by omega) (by omega)]
      omega
    have hrange : RangeOption.bytes ⟨(i * c.part : Nat), (min ((i + 1) * c.part) c.src.length - 1 : Nat)⟩ c.src =
        c.chunk i := by
      rw [bytes_of_span (by omega) (by omega), Copy.chunk, take_eq_take_iff, length_drop]
      omega
    dsimp only at hb
    rw [hlast, hrange] at hb
    split_ifs at hb
    · exact (Option.some.inj hb).symm
    · rw [← Option.some.inj hb, Int.toNat_natCast]
      exact take_of_length_le (by omega)
  · -- the end has wrapped around, and the range is an open one
    have hjob : c.job i = _ := job_of_overflow hchunks hsize (by omega) hi (by omega)
    rw [hjob] at hb
    have hall : c.chunk i = c.src.drop (i * c.part) :=
      take_of_length_le (by rw [length_drop]; omega)
    have hrange : RangeOption.bytes ⟨(i * c.part : Nat), int64 (((i + 1) * c.part : Nat) - 2 ^ 64 - 1)⟩ c.src =
        c.chunk i := by
      rw [hall]
      by_cases hturn : (i + 1) * c.part = 2 ^ 63
      · have hlast : int64 (((i + 1) * c.part : Nat) - 2 ^ 64 - 1) = (2 ^ 63 - 1 : Nat) := by
          rw [hturn]
          decide
        rw [hlast]
        unfold RangeOption.bytes RangeOption.decode
        have hlimit : int64 ((2 ^ 63 - 1 : Nat) - (i * c.part : Nat) + 1) = (2 ^ 63 - i * c.part : Nat) := by
          rw [int64_of_lt (by omega) (by omega)]
          omega
        simp only [Int.natCast_nonneg, if_true, hlimit]
        rw [extract, if_neg (by omega), Int.toNat_natCast, Int.toNat_natCast]
        exact take_of_length_le (by rw [length_drop]; omega)
      · apply bytes_of_open
        rw [int64_of_lt (by omega) (by omega)]
        omega
    dsimp only at hb
    rw [hrange] at hb
    split_ifs at hb
    · exact (Option.some.inj hb).symm
    · rw [← Option.some.inj hb, Int.toNat_natCast]
      exact take_of_length_le (by omega)

end Handed

/-! ## What has been written -/

/-- The first `w` bytes of chunk `i` are in their place. -/
def Copy.InPlace (c : Copy) (i w : Nat) : Dest → Prop
  | .file content => ∀ p, i * c.part ≤ p → p < i * c.part + w → content[p]? = c.src[p]?
  | .parts part => part i = (c.chunk i).take w

/-- Nothing is written behind the end of a file, or to a part that has not been started. -/
def Copy.Clean (c : Copy) (s : State) : Prop :=
  match s.dest with
  | .file content => content.length ≤ c.src.length
  | .parts part => ∀ i, s.status i = none → part i = []

/-- How much of a chunk is known to be written. -/
def Copy.progress (c : Copy) (i : Nat) : Status → Nat
  | .writing w => w
  | .succeeded => (c.chunk i).length
  | .failed => 0

structure Inv (c : Copy) (s : State) : Prop where
  clean : c.Clean s
  started : ∀ i st, s.status i = some st → i < s.next
  next_le : s.next ≤ c.numChunks
  le_length : ∀ i st, s.status i = some st → c.progress i st ≤ (c.chunk i).length
  inPlace : ∀ i st, s.status i = some st → st ≠ .failed → c.InPlace i (c.progress i st) s.dest

variable {c : Copy} {s : State} {st : Status} {i next : Nat}

theorem State.of_status_set {i j : Nat} {st' : Status} (h : (s.set i st).status j = some st') :
    (j = i ∧ st' = st) ∨ (j ≠ i ∧ s.status j = some st') := by
  dsimp only [State.set] at h
  rw [update_apply] at h
  split_ifs at h with heq
  · exact .inl ⟨heq, (Option.some.inj h).symm⟩
  · exact .inr ⟨heq, h⟩

theorem inv_start (c : Copy) : Inv c c.start where
  clean := by
    unfold Copy.Clean Copy.start
    split
    · rename_i content heq
      split_ifs at heq
      cases heq
      exact Nat.zero_le _
    · rename_i part heq
      split_ifs at heq
      cases heq
      exact fun _ _ => rfl
  started := nofun
  next_le := Nat.zero_le _
  le_length := nofun
  inPlace := nofun

/-- A change of one status. -/
theorem Inv.update (h : Inv c s) {dest : Dest} (hi : i < next) (hnext : s.next ≤ next)
    (hle : next ≤ c.numChunks) (hlength : c.progress i st ≤ (c.chunk i).length)
    (hclean : c.Clean { s.set i st with dest := dest, next := next })
    (hplace : ∀ j st', (s.set i st).status j = some st' → st' ≠ .failed → c.InPlace j (c.progress j st') dest) :
    Inv c { s.set i st with dest := dest, next := next } where
  clean := hclean
  started j st' hj := by
    rcases State.of_status_set hj with ⟨rfl, -⟩ | ⟨-, hj⟩
    · exact hi
    · exact (h.started j st' hj).trans_le hnext
  next_le := hle
  le_length j st' hj := by
    rcases State.of_status_set hj with ⟨rfl, rfl⟩ | ⟨-, hj⟩
    · exact hlength
    · exact h.le_length j st' hj
  inPlace := hplace

/-- A change of one status that keeps the destination. -/
theorem Inv.set (h : Inv c s) (hi : i < next) (hnext : s.next ≤ next) (hle : next ≤ c.numChunks)
    (hlength : c.progress i st ≤ (c.chunk i).length) (hplace : st ≠ .failed → c.InPlace i (c.progress i st) s.dest) :
    Inv c { s.set i st with next := next } := by
  refine h.update hi hnext hle hlength ?_ fun j st' hj hne => ?_
  · have hclean := h.clean
    unfold Copy.Clean at hclean ⊢
    dsimp only [State.set]
    split at hclean
    · exact hclean
    · intro j hj
      rw [update_apply] at hj
      split_ifs at hj
      exact hclean j hj
  · rcases State.of_status_set hj with ⟨rfl, rfl⟩ | ⟨-, hj⟩
    · exact hplace hne
    · exact h.inPlace j st' hj hne

theorem Inv.launch (h : Inv c s) (hnext : s.next < c.numChunks) :
    Inv c { s.set s.next (.writing 0) with next := s.next + 1 } := by
  have hnone : s.status s.next = none := by
    by_contra hsome
    obtain ⟨st, hst⟩ := Option.ne_none_iff_exists'.mp hsome
    exact absurd (h.started _ st hst) (Nat.lt_irrefl _)
  refine h.set (Nat.lt_succ_self _) (Nat.le_succ _) hnext (Nat.zero_le _) fun _ => ?_
  have hclean := h.clean
  unfold Copy.Clean at hclean
  unfold Copy.InPlace
  split
  · intro p hle hlt
    exact absurd hlt (not_lt.mpr hle)
  · rename_i part heq
    rw [heq] at hclean
    exact (hclean _ hnone).trans take_zero.symm

/-- The bytes of a piece are bytes of the source. -/
theorem Copy.getElem?_piece (c : Copy) (i w k : Nat) {q : Nat} (hq : q < (((c.chunk i).drop w).take k).length) :
    (((c.chunk i).drop w).take k)[q]? = c.src[i * c.part + w + q]? := by
  rw [length_take, length_drop, c.length_chunk] at hq
  rw [getElem?_take_of_lt (by omega), getElem?_drop, Copy.chunk, getElem?_take_of_lt (by omega),
    getElem?_drop, Nat.add_assoc]

theorem Inv.write (h : Inv c s) {i w k : Nat} (hst : s.status i = some (.writing w)) (hk : w + k ≤ (c.chunk i).length) :
    Inv c { s.set i (.writing (w + k)) with dest := s.dest.write c.writer i w (((c.chunk i).drop w).take k) } := by
  obtain ⟨-, -, -, -, hchunks, -, hcases⟩ := c.plan
  have hi : i < c.numChunks := (h.started i _ hst).trans_le h.next_le
  have hoff : (c.writer.offset i).toNat = i * c.part := by
    rw [Copy.writer, offset_eq c.size_lt hchunks hcases hi, Int.toNat_natCast]
  have hlen : (((c.chunk i).drop w).take k).length = k := by
    rw [length_take, length_drop]
    omega
  have hpart := c.length_chunk i
  have hlt := hchunks.start_lt hi
  refine h.update (h.started i _ hst) le_rfl h.next_le hk ?_ fun j st hj hne => ?_
  · have hclean := h.clean
    unfold Copy.Clean at hclean ⊢
    dsimp only [Dest.write]
    cases hdest : s.dest with rw [hdest] at hclean
    | file content =>
      dsimp only at hclean ⊢
      by_cases hnil : ((c.chunk i).drop w).take k = []
      · rw [hnil, File.pwrite_nil]
        exact hclean
      · rw [File.length_pwrite hnil, hoff, hlen]
        omega
    | parts part =>
      intro j hj
      dsimp only [State.set] at hj
      rw [update_apply] at hj
      split_ifs at hj with heq
      rw [update_of_ne heq]
      exact hclean j hj
  · have hplace := h.inPlace
    cases hdest : s.dest with rw [hdest] at hplace
    | file content =>
      intro p hlow hhigh
      rw [hoff]
      by_cases hin : i * c.part + w ≤ p ∧ p < i * c.part + w + k
      · -- a byte of the piece
        rw [File.getElem?_pwrite_of_mem hin.1 (by rw [hlen]; exact hin.2), c.getElem?_piece i w k (by rw [hlen]; omega),
          show i * c.part + w + (p - (i * c.part + w)) = p by omega]
      · have hold : content[p]? = c.src[p]? := by
          rcases State.of_status_set hj with ⟨rfl, rfl⟩ | ⟨-, hj⟩
          · exact hplace j _ hst nofun p hlow (by dsimp only [Copy.progress] at hhigh ⊢; omega)
          · exact hplace j st hj hne p hlow hhigh
        have hlenj : c.progress j st ≤ c.src.length - j * c.part := by
          rcases State.of_status_set hj with ⟨rfl, rfl⟩ | ⟨-, hj⟩
          · dsimp only [Copy.progress]
            omega
          · have := h.le_length j st hj
            have := c.length_chunk j
            omega
        have hp : p < content.length := by
          have hsome := getElem?_eq_getElem (show p < c.src.length by omega)
          rw [← hold] at hsome
          exact (List.getElem?_eq_some_iff.mp hsome).1
        rw [File.getElem?_pwrite_of_lt (by rw [hlen]; omega) hp]
        exact hold
    | parts part =>
      rcases State.of_status_set hj with ⟨rfl, rfl⟩ | ⟨hij, hj⟩
      · have hplace : part j = (c.chunk j).take w := hplace j _ hst nofun
        change Function.update part j (part j ++ ((c.chunk j).drop w).take k) j = (c.chunk j).take (w + k)
        rw [update_self, hplace, take_add]
      · change Function.update part i _ j = _
        rw [update_of_ne hij]
        exact hplace j st hj hne

theorem inv_step {s s' : State} (h : Inv c s) (hstep : Step c s s') : Inv c s' := by
  cases hstep with
  | launch hnext _ => exact h.launch hnext
  | @write i w k b hst hb hk =>
    have hi := (h.started i _ hst).trans_le h.next_le
    rw [Copy.handed_eq hi hb] at hk ⊢
    exact h.write hst hk
  | @finish i b hst hb _ =>
    have hi := (h.started i _ hst).trans_le h.next_le
    rw [Copy.handed_eq hi hb] at hst
    have hplace := h.inPlace i _ hst nofun
    exact h.set (h.started i _ hst) le_rfl h.next_le le_rfl fun _ => hplace
  | fail hst => exact h.set (h.started _ _ hst) le_rfl h.next_le (Nat.zero_le _) fun hne => absurd rfl hne

theorem inv_reachable (h : c.Reachable s) : Inv c s :=
  @Run.invariant _ (Step c) (Inv c) (fun _ _ => inv_step) _ _ h (inv_start c)

/-! ## The copy -/

theorem flatMap_chunk (c : Copy) : ∀ n, (List.range n).flatMap c.chunk = c.src.take (n * c.part) := by
  intro n
  induction n with
  | zero => rw [Nat.zero_mul]; rfl
  | succ n ih =>
    rw [range_succ, flatMap_append, flatMap_singleton, ih, Nat.add_mul, Nat.one_mul, take_add, Copy.chunk]

/-- When every chunk has succeeded, the destination is the source. -/
theorem content_of_allSucceeded (hreach : c.Reachable s) (hall : c.AllSucceeded s) :
    s.dest.content c.numChunks = c.src := by
  obtain ⟨-, hpos, -, -, hchunks, -, -⟩ := c.plan
  have hinv := inv_reachable hreach
  have hplace : ∀ i < c.numChunks, c.InPlace i (c.chunk i).length s.dest :=
    fun i hi => hinv.inPlace i _ (hall i hi) nofun
  have hclean := hinv.clean
  unfold Copy.Clean at hclean
  cases hdest : s.dest with
  | file content =>
    rw [hdest] at hclean hplace
    apply ext_getElem?
    intro p
    by_cases hp : p < c.src.length
    · have hi : p / c.part < c.numChunks := by
        rw [Nat.div_lt_iff_lt_mul hpos]
        exact hp.trans_le hchunks.le
      have hdiv := Nat.div_add_mod p c.part
      have hmod := Nat.mod_lt p hpos
      rw [Nat.mul_comm] at hdiv
      have hlen := c.length_chunk (p / c.part)
      exact hplace (p / c.part) hi p (by omega) (by omega)
    · have hsrc : c.src[p]? = none := getElem?_eq_none (by omega)
      have hcontent : content[p]? = none := getElem?_eq_none (hclean.trans (by omega))
      exact hcontent.trans hsrc.symm
  | parts part =>
    rw [hdest] at hplace
    have hparts : ∀ i ∈ List.range c.numChunks, part i = c.chunk i := by
      intro i hi
      have hpart : part i = (c.chunk i).take (c.chunk i).length := hplace i (mem_range.mp hi)
      rwa [take_length] at hpart
    change (List.range c.numChunks).flatMap part = c.src
    rw [flatMap_congr hparts, flatMap_chunk]
    exact take_of_length_le hchunks.le

/-- The end of the last part fits into an `int64`. -/
def Copy.Fits (c : Copy) : Prop := c.numChunks * c.part < 2 ^ 63

/-- The ranges the copier works with are a partition of the file, and for every chunk the writer uses the same offset
and length. -/
def Copy.Exact (c : Copy) : Prop :=
  Tiles 0 c.src.length (jobs c.src.length c.part) ∧
    ∀ j ∈ jobs c.src.length c.part, c.writer.offset j.chunk = j.start ∧ c.writer.bytesToWrite j.chunk = j.size

theorem Copy.agrees (hfits : c.Fits) : ∀ j ∈ jobs c.src.length c.part,
    c.writer.offset j.chunk = j.start ∧ c.writer.bytesToWrite j.chunk = j.size := by
  obtain ⟨-, -, -, hn, hchunks, hn', hcases⟩ := c.plan
  intro j hj
  rw [jobs_eq hchunks hn c.size_lt] at hj
  obtain ⟨i, hi, rfl⟩ := mem_map.mp hj
  have hi := mem_range.mp hi
  have hle : (i + 1) * c.part ≤ c.numChunks * c.part := Nat.mul_le_mul_right _ hi
  rw [job_of_fits hchunks c.size_lt hi (hle.trans_lt hfits)]
  exact ⟨offset_eq c.size_lt hchunks hcases hi, bytesToWrite_eq hchunks hn' hcases hi⟩

/-- The chunks are numbered from zero; their ranges are a partition that the writer agrees with exactly when the end of
the last part fits; and whatever the order of the goroutines, if every chunk succeeds the destination is the source. -/
theorem multiThreadCopy_exact (c : Copy) : (jobs c.src.length c.part).map Job.chunk = List.range c.numChunks ∧
      (c.Exact ↔ c.Fits) ∧ ∀ s, c.Reachable s → c.AllSucceeded s → s.dest.content c.numChunks = c.src := by
  obtain ⟨-, -, hle, hn, hchunks, -, -⟩ := c.plan
  have hsize := c.size_lt
  refine ⟨?_, ?_, fun s hreach hall => content_of_allSucceeded hreach hall⟩
  · rw [jobs_eq hchunks hn hsize, map_map]
    exact map_id _
  · have htiles := tiles_iff hchunks hn hsize (by omega)
    exact ⟨fun h => htiles.mp h.1, fun h => ⟨htiles.mpr h, Copy.agrees h⟩⟩

theorem jobs_overflow : jobs (2 ^ 63 - 1) (2 ^ 62 + 1) =
      [⟨0, 0, 2 ^ 62 + 1, 2 ^ 62 + 1⟩, ⟨1, 2 ^ 62 + 1, -2 ^ 63 + 2, 2 ^ 62 + 1⟩] ∧
    (openChunkWriterFromOpenWriterAt (2 ^ 63 - 1) (2 ^ 62 + 1)).bytesToWrite 1 = 2 ^ 62 - 2 := by
  decide +kernel

/-- A file of `2 ^ 63 - 1` bytes in parts of `2 ^ 62 + 1`: the range of the second chunk ends at a negative offset, and
the writer expects another length than the copier. -/
theorem not_exact_of_overflow : ∃ c : Copy, c.src.length = 2 ^ 63 - 1 ∧ c.chunkSize = 2 ^ 62 + 1 ∧
    (⟨1, 2 ^ 62 + 1, -2 ^ 63 + 2, 2 ^ 62 + 1⟩ : Job) ∈ jobs c.src.length c.part ∧
    c.writer.bytesToWrite 1 = 2 ^ 62 - 2 ∧ ¬ c.Exact := by
  have hlen : (replicate (2 ^ 63 - 1) (0 : UInt8)).length = 2 ^ 63 - 1 := length_replicate
  let c : Copy :=
    { src := replicate (2 ^ 63 - 1) 0, chunkSize := 2 ^ 62 + 1, usingOpenWriterAt := true, srcIsLocal := false,
      chunkWriterDoesntSeek := false, streams := 4, backendConcurrency := 4, streamsSet := true,
      size_pos := by rw [hlen]; decide, size_lt := by rw [hlen]; decide, chunk_pos := by decide, chunk_lt := by decide }
  have hsize : (c.src.length : Int) = 2 ^ 63 - 1 := by rw [hlen]; rfl
  have hpart : (c.part : Int) = 2 ^ 62 + 1 := by
    have hdecide : ((partSize (2 ^ 63 - 1) (2 ^ 62 + 1 : Nat)).toNat : Int) = 2 ^ 62 + 1 := by decide +kernel
    rw [Copy.part, hsize]
    exact hdecide
  have hmem : (⟨1, 2 ^ 62 + 1, -2 ^ 63 + 2, 2 ^ 62 + 1⟩ : Job) ∈ jobs c.src.length c.part := by
    rw [hsize, hpart, jobs_overflow.1]
    exact mem_cons_of_mem _ mem_cons_self
  refine ⟨c, hlen, rfl, hmem, ?_, fun hexact => ?_⟩
  · rw [Copy.writer, hsize]
    exact jobs_overflow.2
  · have hstop := (hexact.1.stop_le _ hmem).2
    dsimp only at hstop
    omega

end ZClone.Operations.MultiThread
