import ZClone.Recover.Quiet
import Mathlib.Data.Countable.Basic
import Mathlib.Logic.Equiv.List

/-!
# A completed upload restores to the source image

The two ends put together (`restore_of_upload`), and a run to which this applies: a source of one byte, uploaded without
disturbance with a small stand-in for the Python library.
-/

namespace ZClone.Recover

open Lib Lib.Prog

/-! ## A stand-in for the library -/

section StandIn

instance instCountableString : Countable String :=
  Function.Injective.countable (f := fun s : String => s.toList.map Char.toNat) fun _ _ h =>
    String.toList_inj.1 (List.map_injective_iff.2 (fun _ _ h => Char.toNat_inj.1 h) h)

instance : Countable Chunk :=
  Function.Injective.countable (f := fun c : Chunk =>
    (c.index, c.offset, c.length, c.raw_sha256, c.compressed_size, c.compressed_sha256)) fun a b h => by
    cases a; cases b; simp_all

instance : Countable Identity :=
  Function.Injective.countable (f := fun i : Identity =>
    (i.path, i.dev, i.ino, i.rdev, i.source_id, i.size, i.mtime_ns, i.ctime_ns)) fun a b h => by
    cases a; cases b; simp_all

instance : Countable Header :=
  Function.Injective.countable (f := fun h : Header =>
    (h.version, h.session, h.source, h.destination, h.chunk_size, h.compression)) fun a b h => by
    cases a; cases b; simp_all

instance : Countable Event :=
  Function.Injective.countable (f := fun e : Event =>
    match e with
    | .header h => (Sum.inl h : Header ⊕ (Chunk × (String ⊕ Fin 3)) ⊕ String)
    | .chunk ⟨.prepared, c⟩ => .inr (.inl (c, .inr 0))
    | .chunk ⟨.uploaded, c⟩ => .inr (.inl (c, .inr 1))
    | .chunk ⟨.verified, c⟩ => .inr (.inl (c, .inr 2))
    | .chunk ⟨.other s, c⟩ => .inr (.inl (c, .inl s))
    | .other text => .inr (.inr text)) fun a b h => by
    rcases a with _ | ⟨_ | _ | _ | _, _⟩ | _ <;> rcases b with _ | ⟨_ | _ | _ | _, _⟩ | _ <;> simp_all

instance : Countable Row :=
  Function.Injective.countable (f := fun r : Row => (r.event, r.sha256)) fun a b h => by
    cases a; cases b; simp_all

instance : Countable Manifest :=
  Function.Injective.countable (f := fun m : Manifest => (m.header, m.chunks)) fun a b h => by
    cases a; cases b; simp_all

/-- A number for every value. -/
noncomputable def code (α : Type) [Countable α] : α → Nat := (exists_injective_nat α).choose

theorem code_injective (α : Type) [Countable α] : Function.Injective (code α) := (exists_injective_nat α).choose_spec

open Classical in
/-- The value with a number. -/
noncomputable def decode {α : Type} (f : α → Nat) (n : Nat) : Option α :=
  if h : ∃ a, f a = n then some h.choose else none

theorem decode_eq {α : Type} {f : α → Nat} (hf : Function.Injective f) (a : α) : decode f (f a) = some a := by
  have h : ∃ b, f b = f a := ⟨a, rfl⟩
  unfold decode
  rw [dif_pos h, hf h.choose_spec]

/-- A digest that tells data of one, two and three bytes apart. -/
def shortDigest (data : Bytes) : String :=
  String.ofList (List.replicate 64
    (match data.length with
    | 1 => '1'
    | 2 => '2'
    | 3 => '3'
    | _ => '0'))

theorem isHex_shortDigest (data : Bytes) : isHex 64 (shortDigest data) = true := by
  unfold shortDigest
  split <;> decide

/-- The stand-in, in which the manifest `m₀` is three bytes long. -/
noncomputable def standIn (m₀ : Manifest) : Python where
  sha256 := shortDigest
  gzip data := 0 :: data
  gzipTell _ := 0
  gunzip z :=
    match z with
    | 0 :: data => ⟨data, true⟩
    | _ => ⟨[], false⟩
  encodeEvent _ := []
  encodeRow r := List.replicate (code Row r) 0
  loadsRow l := decode (code Row) (l.length - 1)
  encodeManifest m := List.replicate (Equiv.swap (code Manifest m₀) 3 (code Manifest m)) 0
  loadsManifest l := decode (fun m => Equiv.swap (code Manifest m₀) 3 (code Manifest m)) l.length
  isHex_sha256 := isHex_shortDigest
  gzip_ne_nil _ := List.cons_ne_nil _ _
  gunzip_gzip _ := rfl
  loadsRow_encodeRow r := by
    rw [List.length_append, List.length_replicate, List.length_singleton, Nat.add_sub_cancel]
    exact decode_eq (code_injective Row) r
  newline_notMem_encodeRow r h := absurd (List.eq_of_mem_replicate h) (by decide)
  loadsManifest_encodeManifest m := by
    rw [List.length_replicate]
    exact decode_eq (f := fun m => Equiv.swap (code Manifest m₀) 3 (code Manifest m))
      ((Equiv.injective _).comp (code_injective Manifest)) m

end StandIn

/-! ## A run -/

def byteArgs : Args where
  source := "/image"
  destination := "remote:backup"
  journal_in_stage := false
  chunk_size := 1
  size := none
  source_id := none
  retries := 3

def byteSource : Source := ⟨.regular, 1, 2, 0, 3, 4, [7]⟩

def byteIdentity : Identity := ⟨"/image", some 1, some 2, 0, none, 1, some 3, some 4⟩

def byteSession : { s : String // isHex 32 s = true } := ⟨String.ofList (List.replicate 32 'a'), by decide⟩

def byteManifest : Manifest :=
  ⟨newHeader byteArgs byteSession byteIdentity, [⟨0, 0, 1, shortDigest [7], 2, shortDigest [0, 7]⟩]⟩

def byteWorld : World where
  journal := []
  stage := fun _ => none
  remote := fun _ => none
  version := 0
  verified := []
  hashed := []
  moves := fun _ => quiet byteSession
  time := 0

theorem identity_byteSource : identity byteArgs byteSource = .ok byteIdentity := by decide

theorem encodeManifest_byteManifest : (standIn byteManifest).encodeManifest byteManifest = [0, 0, 0] := by
  show List.replicate (Equiv.swap (code Manifest byteManifest) 3 (code Manifest byteManifest)) 0 = [0, 0, 0]
  rw [Equiv.swap_apply_left]
  rfl

/-- The data of the run. -/
def byteData : Set Bytes := { [7], [0, 7], [0, 0, 0] }

theorem injOn_byteData : Set.InjOn (standIn byteManifest).sha256 byteData := by
  have hdiff : shortDigest [7] ≠ shortDigest [0, 7] ∧ shortDigest [7] ≠ shortDigest [0, 0, 0] ∧
      shortDigest [0, 7] ≠ shortDigest [0, 0, 0] := by decide
  obtain ⟨h1, h2, h3⟩ := hdiff
  rintro a (rfl | rfl | rfl) b (rfl | rfl | rfl) h
  · rfl
  · exact absurd h h1
  · exact absurd h h2
  · exact absurd h.symm h1
  · rfl
  · exact absurd h h3
  · exact absurd h.symm h2
  · exact absurd h.symm h3
  · rfl

theorem fits_standIn (m : Manifest) : Fits (standIn m) := fun data length hle => by
  have hlen : ((standIn m).gzip data).length = data.length + 1 := rfl
  have htell : (standIn m).gzipTell data = 0 := rfl
  rw [hlen, htell, stagingLimit, BLOCK]
  omega

/-- The run completes, with these data hashed. -/
theorem upload_byte : ∃ path, (upload (standIn byteManifest) (fun _ => byteSource) byteArgs byteWorld).1 = .ok path ∧
    ∀ d ∈ (upload (standIn byteManifest) (fun _ => byteSource) byteArgs byteWorld).2.hashed, d ∈ byteData := by
  have hone : ∀ k < chunkCount byteArgs byteSource.bytes, k = 0 := by decide
  have hraw : ∀ k < chunkCount byteArgs byteSource.bytes, rawChunk byteArgs byteSource.bytes k ∈ byteData :=
    fun k hk => by rw [hone k hk]; exact .inl rfl
  have hgz : ∀ k < chunkCount byteArgs byteSource.bytes,
      (standIn byteManifest).gzip (rawChunk byteArgs byteSource.bytes k) ∈ byteData :=
    fun k hk => by rw [hone k hk]; exact .inr (.inl rfl)
  have hm : (standIn byteManifest).encodeManifest (manifestOf (standIn byteManifest) byteArgs
      (newHeader byteArgs byteSession byteIdentity) byteSource.bytes) = [0, 0, 0] := encodeManifest_byteManifest
  have hspec : Returns (fun w => Calm byteSession 0 byteData w ∧ w.journal = [])
      (upload (standIn byteManifest) (fun _ => byteSource) byteArgs) fun _ w => Calm byteSession 0 byteData w ∧ True :=
    upload_completes (fits_standIn _) (by decide) (by decide) rfl identity_byteSource hraw hgz
      (hm ▸ .inr (.inr rfl)) (by rw [hm]; simp [BLOCK])
  have hcalm : Calm byteSession 0 byteData byteWorld := ⟨rfl, rfl, fun d hd => by cases hd⟩
  obtain ⟨path, hok, hrun, -⟩ := hspec.run ⟨hcalm, rfl⟩
  exact ⟨path, hok, hrun.hashed⟩

section Complete

variable (L : Python) (args : Args) (src : Nat → Source)

/-- **A completed upload restores to the source image.** After any number of stopped and resumed invocations, if one
completes, the source had one identity during it, and `restore` of the path it printed succeeds and writes the bytes
that the source has whenever it has that identity; from any store that delivers the verified objects as they are. -/
theorem restore_of_upload (hkept : SourceKept args src) {w : World} (hw : Reached L args src w) {path : String}
    (hok : (upload L src args w).1 = .ok path) (hinj : HashInjective L (upload L src args w).2) :
    ∃ id, (∃ v, w.version ≤ v ∧ v ≤ (upload L src args w).2.version ∧ identity args (src v) = .ok id) ∧
      ∀ (store : Store) (d : Disk), (∀ name ∈ (upload L src args w).2.verified, ∀ data,
          (upload L src args w).2.remote name = some data → Delivers store name data) → d.output = none →
        (restore L .quiet store path d).1 = .ok () ∧
        ∀ v, identity args (src v) = .ok id → (restore L .quiet store path d).2.output = some (src v).bytes := by
  have hspec := upload_spec w.version w ⟨hw.durable, le_rfl⟩
  rcases hu : upload L src args w with ⟨e | path', w'⟩
  · rw [hu] at hok; cases hok
  rw [hu] at hspec hok hinj
  cases hok
  obtain ⟨h, u, B, ⟨hle, hs, hB, rfl⟩, hle', -, hpub⟩ := hspec
  refine ⟨h.source, ⟨u, hle, hle', hs.source⟩, fun store d hstore hout => ?_⟩
  have hdelivers : ∀ {name data}, Held L name data w' → Delivers store name data :=
    fun hh => hstore _ hh.verified _ (hh.content hinj)
  have hbytes : (restore L .quiet store _ d).2.output = some B := restore_delivers hs hB
    (fun k hk => validateChunk_chunkAt (hpub.chunks.prepared k hk)) hpub.small (hdelivers hpub.manifest)
    (fun k hk => hdelivers (hpub.chunks.held k hk)) (fun _ _ _ => rfl) rfl d hout
  refine ⟨(restore_ok_of_output (by rw [hout]; rfl) hbytes).2 (by simp [Host.Late, Host.quiet]), fun v hv => ?_⟩
  rw [hbytes, hB.kept hkept]
  -- the identity of the session is that of version `u`, and the bytes are the same whenever it is seen again
  rcases Nat.le_total u v with huv | hvu
  · rw [hkept u v _ huv hs.source hv v huv le_rfl]
  · rw [hkept v u _ hvu hv hs.source u hvu le_rfl]

end Complete

/-- The run of one byte is one to which this applies: its manifest restores to the byte. -/
theorem restore_of_upload_byte : ∃ (L : Python) (w : World) (path : String),
    SourceKept byteArgs (fun _ => byteSource) ∧ Reached L byteArgs (fun _ => byteSource) w ∧
    (upload L (fun _ => byteSource) byteArgs w).1 = .ok path ∧
    HashInjective L (upload L (fun _ => byteSource) byteArgs w).2 ∧ ∀ (store : Store) (d : Disk),
      (∀ name ∈ (upload L (fun _ => byteSource) byteArgs w).2.verified, ∀ data,
        (upload L (fun _ => byteSource) byteArgs w).2.remote name = some data → Delivers store name data) →
      d.output = none → (restore L .quiet store path d).1 = .ok () ∧
        (restore L .quiet store path d).2.output = some [7] := by
  obtain ⟨path, hok, hhash⟩ := upload_byte
  have hkept : SourceKept byteArgs fun _ => byteSource := fun _ _ _ _ _ _ _ _ _ => rfl
  have hreached : Reached (standIn byteManifest) byteArgs (fun _ => byteSource) byteWorld := .start _ rfl rfl
  have hinj : HashInjective (standIn byteManifest)
      (upload (standIn byteManifest) (fun _ => byteSource) byteArgs byteWorld).2 :=
    injOn_byteData.mono hhash
  refine ⟨standIn byteManifest, byteWorld, path, hkept, hreached, hok, hinj, fun store d hstore hout => ?_⟩
  obtain ⟨id, ⟨v, -, -, hid⟩, hres⟩ :=
    restore_of_upload (standIn byteManifest) byteArgs (fun _ => byteSource) hkept hreached hok hinj
  obtain ⟨hret, hbytes⟩ := hres store d hstore hout
  exact ⟨hret, hbytes v hid⟩

section AllOrNothing

variable (L : Python) (args : Args) (src : Nat → Source)

/-- **Restoring is all or nothing and exact in its layout.** Whatever the store answers and whichever call on the local
disk raises, `restore` raises and leaves the output path as it was (or as someone else filled it meanwhile), or the
output was absent and now holds the parts of the manifest's chunks in order, whose ranges are consecutive and cover the
source, and each of which matched its record. In the second case it returns, unless `sync_dir` or the removal of the
partial file raises. And every manifest that an invocation of `upload` gets to write passes the checks of `restore`. -/
theorem restore_all_or_nothing :
    (∀ (host : Host) (store : Store) (path : String) (d : Disk),
      (∃ e, (restore L host store path d).1 = .error e ∧
        (restore L host store path d).2.output = d.output.or host.meanwhile) ∨
      (d.output = none ∧ host.meanwhile = none ∧
        ((restore L host store path d).1 = .ok () ↔
          host.raises .syncDir = false ∧ host.raises .unlink = false) ∧
        ∃ m parts, L.loadsManifest (store d.reads path).blocks.flatten = some m ∧
          (restore L host store path d).2.output = some parts.flatten ∧
          (parts.flatten.length : Int) = m.header.source.size ∧
          Consecutive m.header 0 0 m.chunks ∧ (m.chunks.map Chunk.length).sum = m.header.source.size ∧
          MatchedAll L store m.header (d.reads + 1) m.chunks parts)) ∧
    (∀ w m, Reached L args src w → (uploadChunks L src args w).1 = .ok m →
      checkManifest m = .ok () ∧
      ((L.encodeManifest m).length ≤ 64 * BLOCK → ∀ (path : String) (r : ReadResult), r.ok = true →
        r.blocks.flatten = L.encodeManifest m →
        readAll (64 * BLOCK) (.valueError "manifest exceeds 64 MiB limit" "") path r = .ok (L.encodeManifest m))) := by
  refine ⟨fun host store path d => ?_, fun w m hw hok => ?_⟩
  · have hspec := restore_spec L host store path d d rfl
    have hlate : ¬ host.Late ↔ host.raises .syncDir = false ∧ host.raises .unlink = false := by
      simp [Host.Late]
    have hlayout : ∀ {m d'}, Restorable m → Restored L store (d.output.or host.meanwhile) (d.reads + 1) m d' →
        d.output = none ∧ host.meanwhile = none ∧ ∃ parts, d'.output = some parts.flatten ∧
          (parts.flatten.length : Int) = m.header.source.size ∧ Consecutive m.header 0 0 m.chunks ∧
          (m.chunks.map Chunk.length).sum = m.header.source.size ∧
          MatchedAll L store m.header (d.reads + 1) m.chunks parts := by
      rintro m d' hrest ⟨hnone, parts, hparts, hout⟩
      obtain ⟨ho, hmean⟩ := Option.or_eq_none_iff.1 hnone
      exact ⟨ho, hmean, parts, hout, hrest.covers ▸ hparts.length_flatten, hrest.layout, hrest.covers, hparts⟩
    rcases hr : restore L host store path d with ⟨e | u, d'⟩
    · rw [hr] at hspec
      obtain hsame | ⟨hl, m, hm, hrest, hpub⟩ := hspec
      · exact .inl ⟨e, rfl, hsame⟩
      · obtain ⟨ho, hmean, parts, hparts⟩ := hlayout hrest hpub
        exact .inr ⟨ho, hmean, ⟨fun h => (by cases h), fun h => absurd hl (hlate.2 h)⟩, m, parts, hm, hparts⟩
    · rw [hr] at hspec
      obtain ⟨hl, m, hm, hrest, hpub⟩ := hspec
      obtain ⟨ho, hmean, parts, hparts⟩ := hlayout hrest hpub
      exact .inr ⟨ho, hmean, ⟨fun _ => hlate.1 hl, fun _ => rfl⟩, m, parts, hm, hparts⟩
  · have hspec := uploadChunks_spec 0 w ⟨hw.durable, Nat.zero_le _⟩
    rcases hu : uploadChunks L src args w with ⟨e | m', w'⟩
    · rw [hu] at hok; cases hok
    · rw [hu] at hspec hok
      cases hok
      obtain ⟨h, u, B, ⟨-, hs, hB, rfl⟩, groups, -, -, hall⟩ := hspec
      refine ⟨checkManifest_manifestOf hs hB fun k hk => validateChunk_chunkAt (hall.prepared k hk),
        fun hsmall path r hr hdata => ?_⟩
      exact (readAll_eq_ok (by decide)).2 ⟨hr, hdata.symm, by exact_mod_cast hsmall⟩

end AllOrNothing

/-- The store with the objects of the run of one byte. -/
def byteStore : Store := fun _ remote => if remote = "manifest" then ⟨[[0, 0, 0]], true⟩ else ⟨[[0, 7]], true⟩

/-- The directory cannot be opened for `sync_dir`: `restore` raises, and the image is there. -/
theorem restore_raises_with_output :
    (∃ e, (restore (standIn byteManifest) { raises := (· = .syncDir) } byteStore "manifest" ⟨none, none, 0⟩).1 =
      .error e) ∧
    (restore (standIn byteManifest) { raises := (· = .syncDir) } byteStore "manifest" ⟨none, none, 0⟩).2.output =
      some [7] := by
  have hsession : SessionOf byteArgs (fun _ => byteSource) (newHeader byteArgs byteSession byteIdentity) 0 :=
    ⟨rfl, byteSession.2, identity_byteSource, rfl, rfl, by decide⟩
  have hone : ∀ k < chunkCount byteArgs [7], k = 0 := by decide
  have hm : (standIn byteManifest).encodeManifest (manifestOf (standIn byteManifest) byteArgs
      (newHeader byteArgs byteSession byteIdentity) [7]) = [0, 0, 0] := encodeManifest_byteManifest
  have hbytes : (restore (standIn byteManifest) { raises := (· = .syncDir) } byteStore "manifest"
      ⟨none, none, 0⟩).2.output = some [7] := by
    refine restore_delivers (B := [7]) hsession ⟨rfl, fun _ => rfl⟩ (fun k hk => ?_) (by rw [hm]; simp [BLOCK])
      (fun n => by rw [hm]; exact ⟨rfl, rfl⟩) (fun k hk n => ?_) (fun c hc _ => by simpa using hc) rfl _ rfl
    · rw [hone k hk]
      decide
    · rw [hone k hk]
      have hname : objectName (standIn byteManifest) byteArgs (newHeader byteArgs byteSession byteIdentity) [7] 0 ≠
          "manifest" := by decide
      rw [byteStore, if_neg hname]
      exact ⟨rfl, rfl⟩
  refine ⟨?_, hbytes⟩
  rcases hr : (restore (standIn byteManifest) { raises := (· = .syncDir) } byteStore "manifest" ⟨none, none, 0⟩).1 with
    e | u
  · exact ⟨e, rfl⟩
  · exact absurd ((restore_ok_of_output rfl hbytes).1 hr) (not_not.2 (.inl rfl))

end ZClone.Recover
