import ZClone.Recover.Resume
import ZClone.Recover.Restore

/-!
# From upload to restore

The two layouts agree: the chunks that `upload` enumerates pass the running offset of `restore`
(`checkManifest_manifestOf`), and put together they are the image (`flatten_rawChunk`). So `restore` of a published
manifest gives the image back.
-/

namespace ZClone.Recover

open Lib Lib.Prog List

variable {L : Python} {args : Args} {src : Nat → Source} {header : Header} {B : Bytes}

/-! ## The layouts agree -/

section Layout

variable {h : Header} {v k : Nat} {B : Bytes}

/-- Where chunk `k` starts, and the end of the image after the last chunk. -/
def start (args : Args) (B : Bytes) (k : Nat) : Int := min (offsetOf args k) B.length

theorem offsetOf_succ (args : Args) (k : Nat) : offsetOf args (k + 1) = offsetOf args k + args.chunk_size := by
  simp only [offsetOf, Int.natCast_add, Int.natCast_one, Int.add_mul, Int.one_mul]

theorem start_zero : start args B 0 = 0 := by
  simp [start, offsetOf]

section

variable (hpos : 0 < args.chunk_size)

include hpos

theorem offsetOf_lt (hk : k < chunkCount args B) : offsetOf args k < B.length := by
  rw [chunkCount, ranges, length_map, length_range] at hk
  have hle : (k : Int) + 1 ≤ (B.length + args.chunk_size - 1) / args.chunk_size := by omega
  rw [Int.le_ediv_iff_mul_le hpos, Int.add_mul] at hle
  simp only [offsetOf]
  omega

theorem length_le_offsetOf : (B.length : Int) ≤ offsetOf args (chunkCount args B) := by
  have hdiv := Int.lt_ediv_add_one_mul_self (B.length + args.chunk_size - 1 : Int) hpos
  rw [Int.add_mul, Int.one_mul] at hdiv
  have hnn : 0 ≤ (B.length + args.chunk_size - 1 : Int) / args.chunk_size := Int.ediv_nonneg (by omega) hpos.le
  rw [chunkCount, ranges, length_map, length_range, offsetOf, Int.toNat_of_nonneg hnn]
  omega

theorem start_chunkCount : start args B (chunkCount args B) = B.length :=
  min_eq_right (length_le_offsetOf hpos)

/-- One chunk on. -/
theorem start_succ (hk : k < chunkCount args B) :
    start args B k = offsetOf args k ∧ start args B (k + 1) = start args B k + lengthOf args B k := by
  have hlt := offsetOf_lt hpos hk
  have hk' : start args B k = offsetOf args k := min_eq_left hlt.le
  refine ⟨hk', ?_⟩
  rw [hk', start, lengthOf, offsetOf_succ]
  omega

theorem length_rawChunk (hk : k < chunkCount args B) : ((rawChunk args B k).length : Int) = lengthOf args B k := by
  have hoff : 0 ≤ offsetOf args k := Int.mul_nonneg (Int.natCast_nonneg k) hpos.le
  have hin := offsetOf_lt hpos hk
  have hle : lengthOf args B k ≤ B.length - offsetOf args k := min_le_right _ _
  have hlen : 0 ≤ lengthOf args B k := by
    simp only [lengthOf, le_min_iff]
    omega
  rw [rawChunk, slice, length_take, length_drop]
  omega

end

/-- **The running offset** over the chunks from `k` on ends at the end of the image. -/
theorem checkLayout_chunks (hpos : 0 < args.chunk_size) (hcs : h.chunk_size = args.chunk_size)
    (hsize : h.source.size = B.length)
    (hvalid : ∀ k < chunkCount args B, validateChunk (chunkAt L args B k) k (offsetOf args k) (lengthOf args B k) =
      .ok ()) :
    ∀ (m k : Nat), k + m = chunkCount args B →
      checkLayout h k (start args B k) ((range' k m).map (chunkAt L args B)) = .ok (B.length : Int)
  | 0, k, hk => by
    obtain rfl : k = chunkCount args B := by omega
    rw [start_chunkCount hpos]
    rfl
  | m + 1, k, hk => by
    have hlt : k < chunkCount args B := by omega
    obtain ⟨hs, hs'⟩ := start_succ hpos hlt
    have hin := offsetOf_lt hpos hlt
    have hlen : min h.chunk_size (h.source.size - start args B k) = lengthOf args B k := by
      rw [hcs, hsize, hs, lengthOf]
    have hl : ¬ lengthOf args B k ≤ 0 := by
      omega
    rw [range'_succ, map_cons, checkLayout, hlen, if_neg hl, hs, hvalid k hlt, ← hs]
    have ih := checkLayout_chunks hpos hcs hsize hvalid m (k + 1) (by omega)
    rw [hs', Int.natCast_add] at ih
    exact ih

/-- **The manifest that `upload` writes passes the checks of `restore`.** -/
theorem checkManifest_manifestOf (hs : SessionOf args src h v) (hB : ImageOf args src v B)
    (hvalid : ∀ k < chunkCount args B, validateChunk (chunkAt L args B k) k (offsetOf args k) (lengthOf args B k) =
      .ok ()) :
    checkManifest (manifestOf L args h B) = .ok () := by
  obtain ⟨hsize, hpos⟩ := identity_size hs.source
  rw [← hB.length] at hsize
  have hlayout := checkLayout_chunks hs.chunk_size_pos hs.chunk_size hsize hvalid (chunkCount args B) 0 (by omega)
  rw [start_zero, ← range_eq_range'] at hlayout
  have hlayout : checkLayout h 0 0 ((List.range (chunkCount args B)).map (chunkAt L args B)) = .ok (B.length : Int) :=
    hlayout
  have hcs := hs.chunk_size_pos
  rw [← hs.chunk_size] at hcs
  have hbad : ¬ (h.version ≠ VERSION ∨ h.chunk_size ≤ 0 ∨ h.source.size ≤ 0) := by
    rw [hs.version]
    omega
  unfold checkManifest manifestOf
  rw [if_neg hbad, if_neg (by rw [hs.session]; simp), hlayout]
  simp [hsize]

/-- The first `k` chunks are the image up to where chunk `k` starts. -/
theorem flatten_rawChunk_take (hpos : 0 < args.chunk_size) : ∀ k ≤ chunkCount args B,
    ((List.range k).map (rawChunk args B)).flatten = B.take (start args B k).toNat
  | 0, _ => by simp [start_zero]
  | k + 1, hk => by
    obtain ⟨hs, hs'⟩ := start_succ hpos (show k < chunkCount args B by omega)
    have hoff : 0 ≤ offsetOf args k := Int.mul_nonneg (Int.natCast_nonneg k) hpos.le
    have hin := offsetOf_lt hpos (show k < chunkCount args B by omega)
    have hlen : 0 ≤ lengthOf args B k := by
      simp only [lengthOf, le_min_iff]
      omega
    have hnat : (start args B (k + 1)).toNat = (offsetOf args k).toNat + (lengthOf args B k).toNat := by
      rw [hs', hs]; omega
    rw [range_succ, map_append, flatten_append, flatten_rawChunk_take hpos k (by omega), hs, hnat,
      take_add]
    simp [rawChunk, slice]

/-- **The chunks put together are the image.** -/
theorem flatten_rawChunk (hpos : 0 < args.chunk_size) :
    ((List.range (chunkCount args B)).map (rawChunk args B)).flatten = B := by
  rw [flatten_rawChunk_take hpos _ le_rfl, start_chunkCount hpos, Int.toNat_natCast, take_length]

end Layout

/-! ## Restoring what is there -/

section Honest

variable {store : Store} {host : Host}

theorem Host.call_of_quiet {c : Call} (hc : host.raises c = false) (d : Disk) : host.call c d = (.ok (), d) := by
  unfold Host.call
  rw [hc]
  rfl

/-- The store delivers `data` under this name. -/
def Delivers (store : Store) (remote : String) (data : Bytes) : Prop :=
  ∀ n, (store n remote).ok = true ∧ (store n remote).blocks.flatten = data

theorem readStore_delivers {remote : String} {data : Bytes} (hd : Delivers store remote data) {limit : Int}
    (hle : (data.length : Int) ≤ limit) (exceeded : Error) (d : Disk) :
    readStore store limit exceeded remote d = (.ok data, { d with reads := d.reads + 1 }) := by
  obtain ⟨hok, hdata⟩ := hd d.reads
  have hr : readAll limit exceeded remote (store d.reads remote) = .ok data :=
    (readAll_eq_ok (by omega)).2 ⟨hok, hdata.symm, hle⟩
  rw [readStore, hr]

/-- Unpacking a sound file writes all of it. -/
theorem unpack_sound (hwrite : ∀ pos, host.raises (.write pos) = false) :
    ∀ (rounds : Nat) (raw rest : Bytes) (d : Disk), rest.length ≤ rounds →
    unpack host ⟨raw ++ rest, true⟩ (raw ++ rest).length rounds raw d =
      (.ok (raw ++ rest), { d with target := d.target.map (· ++ rest) })
  | 0, raw, rest, d, hr => by
    obtain rfl := length_eq_zero_iff.1 (Nat.le_zero.1 hr)
    simp only [unpack, append_nil, Option.map_id']
    rfl
  | rounds + 1, raw, rest, d, hr => by
    rw [unpack]
    by_cases hnil : rest = []
    · subst hnil
      rw [if_pos (by simp)]
      simp only [append_nil, Option.map_id']
      rfl
    · have hpos := length_pos_of_ne_nil hnil
      have hblock : 0 < BLOCK := by decide
      rw [if_neg (by rw [length_append]; omega)]
      rw [drop_left, length_append, Nat.add_sub_cancel_left]
      have hsplit := take_append_drop (min BLOCK rest.length) rest
      have hne : rest.take (min BLOCK rest.length) ≠ [] := fun h => by
        have := congrArg length h
        rw [length_take, length_nil] at this
        omega
      have hstep : writeTarget host (rest.take (min BLOCK rest.length)) d = (.ok (), { d with
          target := d.target.map (· ++ rest.take (min BLOCK rest.length)) }) := by
        rw [writeTarget, hwrite]
        rfl
      rw [if_neg hne, Prog.bind_of_ok hstep]
      have ih := unpack_sound hwrite rounds (raw ++ rest.take (min BLOCK rest.length))
        (rest.drop (min BLOCK rest.length)) { d with
          target := d.target.map (· ++ rest.take (min BLOCK rest.length)) } (by rw [length_drop]; omega)
      rw [append_assoc, hsplit, length_append] at ih
      rw [ih]
      simp only [Option.map_map, Function.comp_def, append_assoc, hsplit]

/-- A chunk that is delivered as recorded is unpacked. -/
theorem restoreChunk_delivers (hwrite : ∀ pos, host.raises (.write pos) = false) {raw : Bytes} {index offset : Int}
    (hd : Delivers store (remotePath header.destination (chunkName header (record L raw index offset raw.length)))
      (L.gzip raw)) (d : Disk) :
    restoreChunk L host store header (record L raw index offset raw.length) d =
      (.ok (), { d with target := d.target.map (· ++ raw), reads := d.reads + 1 }) := by
  have hread := readStore_delivers hd le_rfl (.valueError "remote chunk exceeds recorded size" "") d
  refine (Prog.bind_of_ok hread).trans ?_
  rw [if_neg (by simp [record])]
  have hunpack := unpack_sound hwrite raw.length [] raw { d with reads := d.reads + 1 } le_rfl
  rw [nil_append] at hunpack
  have hlen : (record L raw index offset raw.length).length.toNat = raw.length := Int.toNat_natCast _
  have hcheck : checkRaw L ⟨raw, true⟩ (record L raw index offset raw.length) raw = .ok () := by
    simp [checkRaw, record]
  simp only [L.gunzip_gzip, hlen]
  rw [Prog.bind_of_ok hunpack, hcheck]
  rfl

theorem restoreChunks_delivers (hwrite : ∀ pos, host.raises (.write pos) = false) (hpos : 0 < args.chunk_size)
    (hd : ∀ k < chunkCount args B, Delivers store
      (remotePath header.destination (chunkName header (chunkAt L args B k))) (L.gzip (rawChunk args B k))) :
    ∀ (ks : List Nat) (d : Disk), (∀ k ∈ ks, k < chunkCount args B) →
      restoreChunks L host store header (ks.map (chunkAt L args B)) d =
        (.ok (), { d with
          target := d.target.map (· ++ (ks.map (rawChunk args B)).flatten), reads := d.reads + ks.length })
  | [], d, _ => by
    simp only [map_nil, restoreChunks, flatten_nil, append_nil, Option.map_id']
    rfl
  | k :: ks, d, hks => by
    have hk := hks k (by simp)
    have hchunk : chunkAt L args B k = record L (rawChunk args B k) k (offsetOf args k) (rawChunk args B k).length := by
      rw [chunkAt, length_rawChunk hpos hk]
    have hone := restoreChunk_delivers (L := L) hwrite (by rw [← hchunk]; exact hd k hk) d
    rw [← hchunk] at hone
    rw [map_cons, restoreChunks, Prog.bind_of_ok hone,
      restoreChunks_delivers hwrite hpos hd ks _ fun k hk => hks k (mem_cons_of_mem _ hk)]
    simp only [Option.map_map, Function.comp_def, append_assoc, map_cons, flatten_cons,
      length_cons, Nat.add_assoc, Nat.add_comm 1]

/-- **Restoring a delivered image**, where no call up to the link raises: the image is at the output. -/
theorem restore_delivers {h : Header} {v : Nat} (hs : SessionOf args src h v) (hB : ImageOf args src v B)
    (hvalid : ∀ k < chunkCount args B, validateChunk (chunkAt L args B k) k (offsetOf args k)
      (lengthOf args B k) = .ok ())
    (hsmall : (L.encodeManifest (manifestOf L args h B)).length ≤ 64 * BLOCK) {path : String}
    (hm : Delivers store path (L.encodeManifest (manifestOf L args h B)))
    (hd : ∀ k < chunkCount args B, Delivers store (objectName L args h B k) (L.gzip (rawChunk args B k)))
    (hquiet : ∀ c, c ≠ .syncDir → c ≠ .unlink → host.raises c = false) (hmean : host.meanwhile = none)
    (d : Disk) (hout : d.output = none) : (restore L host store path d).2.output = some B := by
  have hcheck : checkOutput host d = (.ok (), d) := by
    obtain ⟨o, t, n⟩ := d
    cases hout
    unfold checkOutput
    rw [hmean]
  have hread := readStore_delivers hm (show _ ≤ (64 * BLOCK : Int) by exact_mod_cast hsmall)
    (.valueError "manifest exceeds 64 MiB limit" "") d
  have hmanifest : readManifest L store path d = (.ok (manifestOf L args h B), { d with reads := d.reads + 1 }) := by
    unfold readManifest
    rw [Prog.bind_of_ok hread]
    have hparse : parseManifest L (L.encodeManifest (manifestOf L args h B)) = .ok (manifestOf L args h B) := by
      rw [parseManifest, L.loadsManifest_encodeManifest]
    rw [hparse]
    refine (Prog.bind_of_ok rfl).trans ?_
    rw [checkManifest_manifestOf hs hB hvalid]
    rfl
  have hd' : ∀ k < chunkCount args B, Delivers store
      (remotePath h.destination (chunkName h (chunkAt L args B k))) (L.gzip (rawChunk args B k)) := by
    rw [hs.destination]; exact hd
  have hchunks : restoreChunks L host store h ((List.range (chunkCount args B)).map (chunkAt L args B))
      { d with reads := d.reads + 1, target := some [] } =
        (.ok (), { d with target := some B, reads := d.reads + 1 + (List.range (chunkCount args B)).length }) := by
    have hall := restoreChunks_delivers (fun pos => hquiet (.write pos) nofun nofun) hs.chunk_size_pos hd'
      (List.range (chunkCount args B)) { d with reads := d.reads + 1, target := some [] } fun k hk => mem_range.1 hk
    rw [flatten_rawChunk hs.chunk_size_pos] at hall
    exact hall
  have hlink : ∀ n, linkTarget host { d with target := some B, reads := n } = (.ok (), ⟨some B, some B, n⟩) := by
    intro n
    refine (Prog.bind_of_ok (Host.call_of_quiet (hquiet .link nofun nofun) _)).trans ?_
    rw [hout]
  have hbody : ((do
      restoreChunks L host store h ((List.range (chunkCount args B)).map (chunkAt L args B))
      host.call .fsync
      linkTarget host
      host.call .syncDir) { d with reads := d.reads + 1, target := some [] }).2.output = some B := by
    rw [Prog.bind_of_ok hchunks, Prog.bind_of_ok (Host.call_of_quiet (hquiet .fsync nofun nofun) _),
      Prog.bind_of_ok (hlink _)]
    unfold Host.call
    split_ifs <;> rfl
  have hrestore : restore L host store path d = _ := (Prog.bind_of_ok hcheck).trans ((Prog.bind_of_ok hmanifest).trans
    (Prog.bind_of_ok (Host.call_of_quiet (hquiet .mkstemp nofun nofun) _)))
  rw [hrestore]
  dsimp only [manifestOf]
  split_ifs <;> exact hbody

/-- With the output there and no call behind the link raising, `restore` returned. -/
theorem restore_ok_of_output {path : String} {d : Disk} {B : Bytes} (hout : d.output.or host.meanwhile = none)
    (h : (restore L host store path d).2.output = some B) : (restore L host store path d).1 = .ok () ↔ ¬ host.Late := by
  have hspec := restore_spec L host store path d d rfl
  rcases hr : restore L host store path d with ⟨e | u, d'⟩
  · rw [hr] at hspec h
    obtain hsame | ⟨hlate, -⟩ := hspec
    · exact absurd (h.symm.trans (hsame.trans hout)) nofun
    · exact iff_of_false nofun (not_not.2 hlate)
  · rw [hr] at hspec
    exact iff_of_true rfl hspec.1

end Honest

end ZClone.Recover
