import ZClone.Recover.Upload
import Mathlib.Data.Set.Function

/-!
# What survives a stop

`Durable` is what holds of the world whenever an invocation of `upload` stops: the journal is the text of some events
with an unterminated rest, the events are a header and the chunks of the recorded source in order, and the object of
every chunk recorded as verified holds that chunk. It is stated with predicates that are monotone along `Extends`, what
every call does to the world apart from the journal, and each call has its rule in terms of such predicates.
-/

namespace ZClone.Recover

open Lib Lib.Prog List

/-! ## How calls change the world -/

/-- The version does not go back, hashes stay taken, and verified objects stay as they are, except those in `X`. -/
structure Extends (X : Set String) (w w' : World) : Prop where
  version_le : w.version ≤ w'.version
  hashed_subset : w.hashed ⊆ w'.hashed
  verified : ∀ name ∈ w.verified, name ∉ X → name ∈ w'.verified ∧ w'.remote name = w.remote name

/-- Kept by every such change. -/
def Mono (X : Set String) (R : World → Prop) : Prop := ∀ ⦃w w'⦄, Extends X w w' → R w → R w'

variable {X : Set String} {groups : List (Chunk × List State)} {w w' : World}

theorem Mono.weaken {R : World → Prop} (h : Mono X R) : Mono ∅ R := fun _ _ he =>
  h ⟨he.version_le, he.hashed_subset, fun name hn _ => he.verified name hn (Set.notMem_empty name)⟩

theorem Mono.and {R S : World → Prop} (hR : Mono X R) (hS : Mono X S) :
    Mono X fun w => R w ∧ S w := fun _ _ he hw => ⟨hR he hw.1, hS he hw.2⟩

theorem env_extends (w : World) (m : Move) : Extends ∅ w (w.env m) where
  version_le := Nat.le_add_right _ _
  hashed_subset := fun _ h => h
  verified _ hn _ := ⟨hn, if_pos hn⟩

theorem hash_extends (w : World) (data : List Bytes) : Extends ∅ w (w.hash data) where
  version_le := le_rfl
  hashed_subset := fun _ h => mem_append_right _ h
  verified _ hn _ := ⟨hn, rfl⟩

/-! ## The session -/

section Session

variable (L : Python) (args : Args) (src : Nat → Source)

/-- The source had the bytes `B` from version `u` to version `v`. -/
def Steady (u v : Nat) (B : Bytes) : Prop := ∀ t, u ≤ t → t ≤ v → (src t).bytes = B

/-- **The source bytes do not change while its identity is unchanged**: between two times at which it has one
identity the bytes are the same. -/
def SourceKept : Prop := ∀ u v id, u ≤ v → identity args (src u) = .ok id → identity args (src v) = .ok id →
  Steady src u v (src u).bytes

/-- SHA-256 is injective on the data whose hashes were taken. -/
def HashInjective (w : World) : Prop := Set.InjOn L.sha256 { data | data ∈ w.hashed }

/-- `h` is a header of this source, destination and chunk size, with the identity of version `v`. -/
structure SessionOf (h : Header) (v : Nat) : Prop where
  version : h.version = VERSION
  session : isHex 32 h.session = true
  source : identity args (src v) = .ok h.source
  destination : h.destination = args.destination
  chunk_size : h.chunk_size = args.chunk_size
  chunk_size_pos : 0 < args.chunk_size

/-- The bytes of a range. -/
def slice (B : Bytes) (offset length : Int) : Bytes := (B.drop offset.toNat).take length.toNat

def offsetOf (k : Nat) : Int := k * args.chunk_size

def lengthOf (B : Bytes) (k : Nat) : Int := min args.chunk_size (B.length - offsetOf args k)

/-- The bytes of chunk `k` of the image `B`. -/
def rawChunk (B : Bytes) (k : Nat) : Bytes := slice B (offsetOf args k) (lengthOf args B k)

/-- The record of chunk `k` of the image `B`. -/
def chunkAt (B : Bytes) (k : Nat) : Chunk := record L (rawChunk args B k) k (offsetOf args k) (lengthOf args B k)

/-- The object of chunk `k`. -/
def objectName (h : Header) (B : Bytes) (k : Nat) : String :=
  remotePath args.destination (chunkName h (chunkAt L args B k))

/-- Chunk `k` of the image `B` exists and was prepared. -/
structure Prepared (B : Bytes) (k : Nat) (w : World) : Prop where
  inside : offsetOf args k < B.length
  limit : ((L.gzip (rawChunk args B k)).length : Int) ≤ stagingLimit (lengthOf args B k)
  hashed : L.gzip (rawChunk args B k) ∈ w.hashed

/-- The object holds `data` and others leave it alone. -/
structure Held (name : String) (data : Bytes) (w : World) : Prop where
  verified : name ∈ w.verified
  content : HashInjective L w → w.remote name = some data

/-- The object of chunk `k` of the image `B` holds it. -/
def HeldChunk (h : Header) (B : Bytes) (k : Nat) : World → Prop :=
  Held L (objectName L args h B k) (L.gzip (rawChunk args B k))

/-- The chunks recorded so far, with their paths. -/
structure Recorded (h : Header) (B : Bytes) (groups : List (Chunk × List State)) (w : World) : Prop where
  ordered : WellOrdered groups
  chunk : ∀ k (hk : k < groups.length), groups[k].1 = chunkAt L args B k ∧ Prepared L args B k w
  held : ∀ k (hk : k < groups.length), groups[k].2.getLast? = some .verified → HeldChunk L args h B k w

/-- The events of a session. -/
def sessionEvents (h : Header) (groups : List (Chunk × List State)) : List Event :=
  .header h :: groups.flatMap pathEvents

/-- `B` stands for the image of version `v`: it has its size and, if the source is kept, its bytes. -/
structure ImageOf (v : Nat) (B : Bytes) : Prop where
  length : B.length = (src v).bytes.length
  kept : SourceKept args src → B = (src v).bytes

/-- The session of `h` goes on from a world with this: the identity was taken before, and the records hold. -/
structure Ongoing (h : Header) (v : Nat) (B : Bytes) (groups : List (Chunk × List State)) (w : World) : Prop where
  version_le : v ≤ w.version
  image : ImageOf args src v B
  recorded : Recorded L args h B groups w

/-- What the events of a journal say is so. -/
def EventsHold (es : List Event) (w : World) : Prop :=
  es = [] ∨ ∃ h v B groups, es = sessionEvents h groups ∧ SessionOf args src h v ∧
    Ongoing L args src h v B groups w

/-- **What survives a stop.** -/
def Durable (w : World) : Prop :=
  ∃ es t, w.journal = Journal.render L es ++ t ∧ 10 ∉ t ∧ EventsHold L args src es w

end Session

variable {L : Python} {args : Args} {src : Nat → Source} {B B' data : Bytes} {h : Header} {k i n : Nat}

theorem HashInjective.mono (he : Extends X w w') (h : HashInjective L w') :
    HashInjective L w := Set.InjOn.mono (fun _ hd => he.hashed_subset hd) h

theorem Held.mono {name : String} (hX : name ∉ X) : Mono X (Held L name data) :=
  fun _ _ he h => ⟨(he.verified name h.verified hX).1, fun hi => by
    rw [(he.verified name h.verified hX).2]
    exact h.content (hi.mono he)⟩

theorem Prepared.mono : Mono X (Prepared L args B k) :=
  fun _ _ he h => ⟨h.inside, h.limit, he.hashed_subset h.hashed⟩

/-- The records go on to hold if the objects in `X` are not recorded as verified. -/
theorem Recorded.mono
    (hX : ∀ k (hk : k < groups.length), groups[k].2.getLast? = some .verified → objectName L args h B k ∉ X) :
    Mono X (Recorded L args h B groups) := fun _ _ he hr =>
  ⟨hr.ordered, fun k hk => ⟨(hr.chunk k hk).1, Prepared.mono he (hr.chunk k hk).2⟩,
    fun k hk hv => Held.mono (hX k hk hv) he (hr.held k hk hv)⟩

theorem Ongoing.mono {v : Nat}
    (hX : ∀ k (hk : k < groups.length), groups[k].2.getLast? = some .verified → objectName L args h B k ∉ X) :
    Mono X (Ongoing L args src h v B groups) := fun _ _ he ho =>
  ⟨ho.version_le.trans he.version_le, ho.image, Recorded.mono hX he ho.recorded⟩

theorem EventsHold.mono {es : List Event} : Mono ∅ (EventsHold L args src es) := by
  rintro w w' he (rfl | ⟨h, v, B, groups, rfl, hs, ho⟩)
  · exact .inl rfl
  · exact .inr ⟨h, v, B, groups, rfl, hs, Ongoing.mono (fun _ _ _ => Set.notMem_empty _) he ho⟩

/-- `n` is the number of chunks: those before it start inside the image. -/
theorem Prepared.lt (hpos : 0 < args.chunk_size) (h : Prepared L args B k w) :
    k < (ranges B.length args.chunk_size).length := by
  have := h.inside
  simp only [offsetOf] at this
  rw [ranges, length_map, length_range]
  have hk : (k : Int) + 1 ≤ (B.length + args.chunk_size - 1) / args.chunk_size := by
    rw [Int.le_ediv_iff_mul_le hpos, Int.add_mul]
    omega
  omega

theorem objectName_ne (hne : i ≠ k) : objectName L args h B i ≠ objectName L args h B k :=
  fun he => hne (chunkName_injective (i := i) (k := k) rfl rfl (remotePath_injective he))

/-! ## Images that agree so far -/

/-- `B'` has the size of `B` and the same first `n` chunks. -/
structure Agree (args : Args) (n : Nat) (B B' : Bytes) : Prop where
  length : B'.length = B.length
  chunks : ∀ i < n, rawChunk args B' i = rawChunk args B i

theorem Agree.lengthOf (h : Agree args n B B') (k : Nat) : lengthOf args B' k = lengthOf args B k := by
  unfold Recover.lengthOf
  rw [h.length]

theorem Agree.chunkAt (h : Agree args n B B') (hi : i < n) : chunkAt L args B' i = chunkAt L args B i := by
  unfold Recover.chunkAt
  rw [h.chunks i hi, h.lengthOf]

theorem Agree.recorded
    (ha : Agree args groups.length B B') (hr : Recorded L args h B groups w) : Recorded L args h B' groups w where
  ordered := hr.ordered
  chunk k hk := by
    obtain ⟨hc, hp⟩ := hr.chunk k hk
    refine ⟨hc.trans (ha.chunkAt hk).symm, by rw [ha.length]; exact hp.inside, ?_, ?_⟩
    · rw [ha.chunks k hk, ha.lengthOf]; exact hp.limit
    · rw [ha.chunks k hk]; exact hp.hashed
  held k hk hv := by
    have := hr.held k hk hv
    rwa [HeldChunk, objectName, ← ha.chunkAt hk, ← ha.chunks k hk] at this

theorem slice_eq_drop_take (B : Bytes) (offset length : Int) :
    slice B offset length = (B.take (offset.toNat + length.toNat)).drop offset.toNat := by
  rw [slice, drop_take, Nat.add_sub_cancel_left]

/-- Any bytes may stand for chunk `k`. -/
theorem exists_agree (hpos : 0 < args.chunk_size) (hin : offsetOf args k < B.length)
    (hlen : (data.length : Int) = lengthOf args B k) : ∃ B', Agree args k B B' ∧ rawChunk args B' k = data := by
  have hoff : ∀ i, 0 ≤ offsetOf args i := fun i => Int.mul_nonneg (Int.natCast_nonneg i) hpos.le
  have hk := hoff k
  have hle : lengthOf args B k ≤ B.length - offsetOf args k := min_le_right _ _
  let B' := B.take (offsetOf args k).toNat ++ (data ++ B.drop ((offsetOf args k).toNat + data.length))
  have htake : (B.take (offsetOf args k).toNat).length = (offsetOf args k).toNat := by
    rw [length_take]; omega
  have hlen' : B'.length = B.length := by
    simp only [B', length_append, htake, length_drop]
    omega
  refine ⟨B', ⟨hlen', fun i hi => ?_⟩, ?_⟩
  · -- a chunk before `k` ends before it
    have hi' : (i : Int) + 1 ≤ k := by omega
    have hend : offsetOf args i + args.chunk_size ≤ offsetOf args k := by
      have := Int.mul_le_mul_of_nonneg_right hi' hpos.le
      simp only [offsetOf, Int.add_mul, Int.one_mul] at this ⊢
      omega
    have hshort : lengthOf args B i ≤ args.chunk_size := min_le_left _ _
    have := hoff i
    have heq : lengthOf args B' i = lengthOf args B i := by unfold lengthOf; rw [hlen']
    rw [rawChunk, rawChunk, heq, slice_eq_drop_take, slice_eq_drop_take,
      take_append_of_le_length (by rw [htake]; omega), take_take,
      Nat.min_eq_left (by omega)]
  · have heq : lengthOf args B' k = lengthOf args B k := by unfold lengthOf; rw [hlen']
    have hdrop : B'.drop (offsetOf args k).toNat = data ++ B.drop ((offsetOf args k).toNat + data.length) :=
      drop_left' htake
    rw [rawChunk, slice, heq, ← hlen, Int.toNat_natCast, hdrop, take_left]

/-! ## How the records grow -/

section Grow

variable {h : Header} {B : Bytes} {w : World}

/-- The next chunk is prepared. -/
theorem Recorded.prepare (hr : Recorded L args h B groups w)
    (hlast : ∀ g ∈ groups.getLast?, g.2.getLast? = some .verified) (hp : Prepared L args B groups.length w) :
    Recorded L args h B (groups ++ [(chunkAt L args B groups.length, [.prepared])]) w where
  ordered := hr.ordered.snoc rfl (by simp [statePaths]) hlast
  chunk k hk := by
    by_cases hlt : k < groups.length
    · rw [getElem_append_left hlt]; exact hr.chunk k hlt
    · obtain rfl : k = groups.length := by simp at hk; omega
      simp only [getElem_concat_length]; exact ⟨trivial, hp⟩
  held k hk hv := by
    by_cases hlt : k < groups.length
    · rw [getElem_append_left hlt] at hv; exact hr.held k hlt hv
    · obtain rfl : k = groups.length := by simp at hk; omega
      simp only [getElem_concat_length] at hv; cases hv

/-- The last chunk goes on along a transition; if it is verified now, its object holds it. -/
theorem Recorded.advance {c : Chunk} {p : List State} {s s' : State}
    (hr : Recorded L args h B (groups ++ [(c, p)]) w) (hs : p.getLast? = some s) (ht : (s, s') ∈ Replay.transitions)
    (hv : s' = .verified → HeldChunk L args h B groups.length w) :
    Recorded L args h B (groups ++ [(c, p ++ [s'])]) w where
  ordered := by
    have hlast := hr.ordered groups.length (by simp)
    simp only [getElem_concat_length] at hlast
    exact hr.ordered.init.snoc hlast.1 (statePaths_advance hlast.2.1 hs ht) hr.ordered.last
  chunk k hk := by
    have := hr.chunk k (by simpa using hk)
    by_cases hlt : k < groups.length
    · rw [getElem_append_left hlt] at this ⊢; exact this
    · obtain rfl : k = groups.length := by simp at hk; omega
      simp only [getElem_concat_length] at this ⊢; exact this
  held k hk hv' := by
    by_cases hlt : k < groups.length
    · have := hr.held k (by simpa using hk)
      rw [getElem_append_left hlt] at this hv'
      exact this hv'
    · obtain rfl : k = groups.length := by simp at hk; omega
      exact hv (by simpa using hv')

end Grow
end ZClone.Recover
