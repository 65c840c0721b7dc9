import ZClone.Lib.Prog
import ZClone.Recover.Basic
import Mathlib.Algebra.Order.BigOperators.Group.List
import Mathlib.Tactic.Ring

/-!
# Restoring

`restore` as a program over the `Disk`: the output path and the partial file next to it. The store answers every read
as it likes, and any call on the local disk may raise (`Host`). Whatever happens, the output path is only touched by the
final link (`restore_spec`); behind it `sync_dir` and the removal of the partial file can still raise.
-/

namespace ZClone.Recover

open Lib List

/-- The part of the local disk that `restore` works on. -/
structure Disk where
  output : Option Bytes
  /-- the temporary file with suffix `.partial`, while it exists -/
  target : Option Bytes
  /-- how many objects were read -/
  reads : Nat
  deriving DecidableEq, Repr

/-- The store: what reading a remote object delivers, by the number of the read. -/
abbrev Store := Nat → String → ReadResult

/-- The calls on the local disk that can raise. -/
inductive Call
  | mkstemp
  /-- the write behind this many bytes of the partial file -/
  | write (pos : Nat)
  | fsync
  | link
  | syncDir
  | unlink
  deriving DecidableEq

/-- What happens on the local disk during a `restore`: the calls that raise, and the file that someone else puts at the
output path after the check. -/
structure Host where
  raises : Call → Bool := fun _ => false
  meanwhile : Option Bytes := none

/-- Nothing unusual. -/
def Host.quiet : Host := {}

/-- A call that only succeeds or raises. -/
def Host.call (host : Host) (c : Call) : Prog Disk Error Unit :=
  if host.raises c then Prog.throw (.osError "disk" "") else pure ()

/-- `store.read` -/
def readStore (store : Store) (limit : Int) (exceeded : Error) (remote : String) : Prog Disk Error Bytes := fun d =>
  (readAll limit exceeded remote (store d.reads remote), { d with reads := d.reads + 1 })

/-- `target.write(data)` -/
def writeTarget (host : Host) (data : Bytes) : Prog Disk Error Unit := fun d =>
  if host.raises (.write (d.target.getD []).length) then (.error (.osError "disk" ""), d)
  else (.ok (), { d with target := d.target.map (· ++ data) })

/-- The layout loop: `index` and `offset` are those of the next chunk; the offset at the end. -/
def checkLayout (header : Header) : Int → Int → List Chunk → Except Error Int
  | _, offset, [] => .ok offset
  | index, offset, chunk :: chunks =>
    let length := min header.chunk_size (header.source.size - offset)
    if length ≤ 0 then .error (.valueError "manifest contains extra chunks" "")
    else do
      validateChunk chunk index offset length
      checkLayout header (index + 1) (offset + length) chunks

section Restore

variable (L : Python) (host : Host)

/-- Reading past the end of what a damaged gzip file gives. -/
def gzipError : Error := .osError "gzip" ""

/-- The loop that unpacks `length` bytes into the target, with `raw` unpacked so far; every round writes at least one
byte, so that the first argument, the number of rounds left, does not run out. -/
def unpack (z : Gunzip) (length : Nat) : Nat → Bytes → Prog Disk Error Bytes
  | 0, raw => pure raw
  | rounds + 1, raw =>
    if raw.length = length then pure raw
    else
      let data := (z.data.drop raw.length).take (min BLOCK (length - raw.length))
      if data = [] then
        Prog.throw (if z.clean then .valueError "decompressed chunk is truncated" "" else gzipError)
      else do
        writeTarget host data
        unpack z length rounds (raw ++ data)

/-- After `raw`, `uncompressed.read(1)` must be at the end, and the hash must be the recorded one. -/
def checkRaw (z : Gunzip) (chunk : Chunk) (raw : Bytes) : Except Error Unit :=
  if raw.length < z.data.length then .error (.valueError "decompressed chunk verification failed" "")
  else if !z.clean then .error gzipError
  else if L.sha256 raw ≠ chunk.raw_sha256 then .error (.valueError "decompressed chunk verification failed" "")
  else .ok ()

/-- One chunk: read it, compare it with its record and unpack it into the target. -/
def restoreChunk (store : Store) (header : Header) (chunk : Chunk) : Prog Disk Error Unit := do
  let compressed ← readStore store chunk.compressed_size (.valueError "remote chunk exceeds recorded size" "")
    (remotePath header.destination (chunkName header chunk))
  if (compressed.length : Int) ≠ chunk.compressed_size ∨ L.sha256 compressed ≠ chunk.compressed_sha256 then
    Prog.throw (.valueError "compressed chunk verification failed" "")
  else do
    let z := L.gunzip compressed
    let raw ← unpack host z chunk.length.toNat chunk.length.toNat []
    Prog.ofExcept (checkRaw L z chunk raw)

def restoreChunks (store : Store) (header : Header) : List Chunk → Prog Disk Error Unit
  | [] => pure ()
  | chunk :: chunks => do
    restoreChunk L host store header chunk
    restoreChunks store header chunks

/-- `os.link(partial, output)`, which does not replace a file. -/
def linkTarget : Prog Disk Error Unit := do
  host.call .link
  fun d =>
    match d.output with
    | some _ => (.error (.fileExistsError ""), d)
    | none => (.ok (), { d with output := d.target })

/-- `mkstemp`, and `try: ... finally: os.unlink(partial)`; what `unlink` raises replaces what was raised before. -/
def withTarget (m : Prog Disk Error Unit) : Prog Disk Error Unit := do
  host.call .mkstemp
  fun d =>
    let r := m { d with target := some [] }
    if host.raises .unlink then (.error (.osError "disk" ""), r.2) else (r.1, { r.2 with target := none })

/-- The checks of the manifest before anything is written. -/
def checkManifest (manifest : Manifest) : Except Error Unit :=
  let header := manifest.header
  if header.version ≠ VERSION ∨ header.chunk_size ≤ 0 ∨ header.source.size ≤ 0 then
    .error (.valueError "invalid recovery manifest" "")
  else if ¬ isHex 32 header.session then .error (.valueError "invalid session ID" "")
  else
    match checkLayout header 0 0 manifest.chunks with
    | .error e => .error e
    | .ok offset =>
      if offset ≠ header.source.size then .error (.valueError "manifest does not cover the complete source" "")
      else .ok ()

/-- `json.loads` of what was read. -/
def parseManifest (data : Bytes) : Except Error Manifest :=
  match L.loadsManifest data with
  | none => .error .keyError
  | some manifest => .ok manifest

def readManifest (store : Store) (path : String) : Prog Disk Error Manifest := do
  let data ← readStore store (64 * BLOCK) (.valueError "manifest exceeds 64 MiB limit" "") path
  let manifest ← Prog.ofExcept (parseManifest L data)
  Prog.ofExcept (checkManifest manifest)
  pure manifest

/-- `output.exists()`; after it, someone else may put a file there. -/
def checkOutput : Prog Disk Error Unit := fun d =>
  match d.output with
  | some _ => (.error (.fileExistsError "restore output already exists"), d)
  | none => (.ok (), { d with output := host.meanwhile })

def restore (store : Store) (path : String) : Prog Disk Error Unit := do
  checkOutput host
  let manifest ← readManifest L store path
  withTarget host do
    restoreChunks L host store manifest.header manifest.chunks
    host.call .fsync
    linkTarget host
    host.call .syncDir

end Restore

/-! ## The layout -/

/-- Consecutive ranges from `offset` on, none empty or longer than a chunk, with records from `index` on. -/
def Consecutive (header : Header) (index offset : Int) (chunks : List Chunk) : Prop :=
  ∀ k (hk : k < chunks.length), chunks[k].index = index + k ∧
    chunks[k].offset = offset + ((chunks.take k).map Chunk.length).sum ∧
    0 < chunks[k].length ∧ chunks[k].length ≤ header.chunk_size ∧ 0 < chunks[k].compressed_size

variable {header : Header} {o : Option Bytes} {n : Nat} {chunks : List Chunk} {raw T : Bytes} {z : Gunzip}

theorem checkLayout_ok : ∀ {index offset total : Int} {chunks : List Chunk},
    checkLayout header index offset chunks = .ok total →
      total = offset + (chunks.map Chunk.length).sum ∧ Consecutive header index offset chunks
  | index, offset, total, [], h => by
    cases h
    exact ⟨by simp, fun k hk => by simp at hk⟩
  | index, offset, total, chunk :: chunks, h => by
    rw [checkLayout] at h
    split_ifs at h with hlen
    obtain ⟨_, hvalid, hrest⟩ := except_bind_eq_ok.1 h
    obtain ⟨⟨hi, ho, hl⟩, ⟨hsize, -⟩, -⟩ := validateChunk_eq_ok.1 hvalid
    obtain ⟨htotal, hcons⟩ := checkLayout_ok hrest
    rw [← hl] at hrest htotal hcons hlen
    refine ⟨by rw [htotal, map_cons, sum_cons]; omega, fun k hk => ?_⟩
    cases k with
    | zero =>
      refine ⟨by simpa using hi, by simpa using ho, by simpa using hlen, ?_, hsize⟩
      rw [getElem_cons_zero, hl]
      exact min_le_left _ _
    | succ k =>
      obtain ⟨hki, hko, hkl⟩ := hcons k (by simpa using hk)
      refine ⟨?_, ?_, hkl⟩
      · rw [getElem_cons_succ, hki]; omega
      · rw [getElem_cons_succ, hko, take_succ_cons, map_cons, sum_cons]; omega

/-- What the checks of the manifest make sure of. -/
structure Restorable (manifest : Manifest) : Prop where
  layout : Consecutive manifest.header 0 0 manifest.chunks
  covers : (manifest.chunks.map Chunk.length).sum = manifest.header.source.size

theorem checkManifest_ok {manifest : Manifest} (h : checkManifest manifest = .ok ()) : Restorable manifest := by
  unfold checkManifest at h
  dsimp only at h
  split_ifs at h
  split at h
  · cases h
  · rename_i offset hlayout
    split_ifs at h with hne
    obtain ⟨htotal, hcons⟩ := checkLayout_ok hlayout
    exact ⟨hcons, by rw [← not_not.1 hne, htotal]; simp⟩

/-! ## What restoring does -/

section Spec

open Prog
open Triple (fact_pre conseq conseq_error)

variable {L : Python} {host : Host} {store : Store} {chunk : Chunk} {parts : List Bytes}

theorem Host.call_spec {P : Disk → Prop} {E : Error → Disk → Prop} (c : Call)
    (hE : host.raises c = true → ∀ e d, P d → E e d) :
    Triple P (host.call c) (fun _ d => host.raises c = false ∧ P d) E := by
  unfold Host.call
  cases hc : host.raises c with
  | true => exact .throw fun d hd => hE hc _ d hd
  | false => exact .pure fun d hd => ⟨rfl, hd⟩

/-- The disk while restoring: the output as it was, the target so far, and the number of reads. -/
def Working (o : Option Bytes) (T : Bytes) (n : Nat) (d : Disk) : Prop :=
  d.output = o ∧ d.target = some T ∧ d.reads = n

/-- `raw` is what chunk `chunk`, as the `n`-th read delivered it, unpacks to, and all is as recorded. -/
def Matched (L : Python) (store : Store) (header : Header) (n : Nat) (chunk : Chunk) (raw : Bytes) : Prop :=
  let r := store n (remotePath header.destination (chunkName header chunk))
  r.ok = true ∧ (r.blocks.flatten.length : Int) = chunk.compressed_size ∧
    L.sha256 r.blocks.flatten = chunk.compressed_sha256 ∧ L.gunzip r.blocks.flatten = ⟨raw, true⟩ ∧
    (raw.length : Int) = chunk.length ∧ L.sha256 raw = chunk.raw_sha256

theorem unpack_spec {length : Nat} :
    ∀ (rounds : Nat) (raw : Bytes), raw <+: z.data → raw.length ≤ length → length ≤ raw.length + rounds →
      Triple (Working o (T ++ raw) n) (unpack host z length rounds raw)
        (fun raw' d => (raw' <+: z.data ∧ raw'.length = length) ∧ Working o (T ++ raw') n d) (fun _ d => d.output = o)
  | 0, raw, hpre, hle, hr => .pure fun d hd => ⟨⟨hpre, by omega⟩, hd⟩
  | rounds + 1, raw, hpre, hle, hr => by
    rw [unpack]
    by_cases hdone : raw.length = length
    · rw [if_pos hdone]
      exact .pure fun d hd => ⟨⟨hpre, hdone⟩, hd⟩
    · rw [if_neg hdone]
      by_cases hnil : (z.data.drop raw.length).take (min BLOCK (length - raw.length)) = []
      · rw [if_pos hnil]
        exact .throw fun d hd => hd.1
      · rw [if_neg hnil]
        have hpos := length_pos_of_ne_nil hnil
        have hshort : ((z.data.drop raw.length).take (min BLOCK (length - raw.length))).length ≤ length -
            raw.length := by
          rw [length_take]; omega
        refine .bind (R := fun _ => Working o
          (T ++ (raw ++ (z.data.drop raw.length).take (min BLOCK (length - raw.length)))) n) ?_ fun _ => ?_
        · intro d hd
          unfold writeTarget
          split_ifs
          · exact hd.1
          · exact ⟨hd.1, by simp [hd.2.1], hd.2.2⟩
        · refine unpack_spec rounds _ ?_ (by rw [length_append]; omega) (by rw [length_append]; omega)
          obtain ⟨t, ht⟩ := hpre
          rw [← ht, drop_left, prefix_append_right_inj]
          exact take_prefix _ _

theorem checkRaw_ok (hpre : raw <+: z.data)
    (h : checkRaw L z chunk raw = .ok ()) : z = ⟨raw, true⟩ ∧ L.sha256 raw = chunk.raw_sha256 := by
  unfold checkRaw at h
  split_ifs at h with hlt hclean hsha
  have heq := hpre.eq_of_length (le_antisymm hpre.length_le (by omega))
  obtain ⟨data, clean⟩ := z
  subst heq
  simp only [Bool.not_eq_eq_eq_not, Bool.not_true, Bool.not_eq_false] at hclean
  exact ⟨by rw [hclean], not_not.1 hsha⟩

/-- One chunk: the target grows by what it unpacks to. -/
theorem restoreChunk_spec (hsize : 0 ≤ chunk.compressed_size) (hlen : 0 ≤ chunk.length) :
    Triple (Working o T n) (restoreChunk L host store header chunk)
      (fun _ d => ∃ raw, Matched L store header n chunk raw ∧ Working o (T ++ raw) (n + 1) d)
      (fun _ d => d.output = o) := by
  refine .bind (R := fun compressed d =>
    (readAll chunk.compressed_size (.valueError "remote chunk exceeds recorded size" "")
      (remotePath header.destination (chunkName header chunk))
      (store n (remotePath header.destination (chunkName header chunk))) = .ok compressed) ∧
    Working o T (n + 1) d) ?_ fun compressed => fact_pre fun hread => ?_
  · rintro d ⟨ho, ht, rfl⟩
    unfold readStore
    cases hr : readAll chunk.compressed_size (.valueError "remote chunk exceeds recorded size" "")
      (remotePath header.destination (chunkName header chunk))
      (store d.reads (remotePath header.destination (chunkName header chunk))) with
    | error e => exact ho
    | ok compressed => exact ⟨rfl, ho, ht, rfl⟩
  · obtain ⟨hok, rfl, -⟩ := (readAll_eq_ok hsize).1 hread
    split_ifs with hbad
    · exact .throw fun d hd => hd.1
    · rw [not_or, not_not, not_not] at hbad
      refine .bind (conseq (unpack_spec (T := T) chunk.length.toNat [] nil_prefix
        (Nat.zero_le chunk.length.toNat) (by simp)) (fun d hd => by rw [append_nil]; exact hd)
        fun _ _ hd => hd) fun raw => fact_pre fun ⟨hpre, hraw⟩ => ?_
      refine .ofExcept (fun _ d hcheck hd => ?_) fun e d _ hd => hd.1
      obtain ⟨hz, hsha⟩ := checkRaw_ok hpre hcheck
      exact ⟨raw, ⟨hok, hbad.1, hbad.2, hz, by omega, hsha⟩, hd⟩

/-- The parts that the chunks unpack to, read from the `n`-th read on. -/
def MatchedAll (L : Python) (store : Store) (header : Header) (n : Nat) (chunks : List Chunk) (parts : List Bytes) :
    Prop :=
  parts.length = chunks.length ∧ ∀ i (hc : i < chunks.length) (hp : i < parts.length),
    Matched L store header (n + i) chunks[i] parts[i]

theorem matchedAll_cons (h : Matched L store header n chunk raw) (hs : MatchedAll L store header (n + 1) chunks parts) :
    MatchedAll L store header n (chunk :: chunks) (raw :: parts) := by
  refine ⟨by simp [hs.1], fun i hc hp => ?_⟩
  cases i with
  | zero => exact h
  | succ i =>
    have := hs.2 i (by simpa using hc) (by simpa using hp)
    rwa [show n + 1 + i = n + (i + 1) by omega] at this

/-- The parts are together as long as recorded. -/
theorem MatchedAll.length_flatten (h : MatchedAll L store header n chunks parts) :
    (parts.flatten.length : Int) = (chunks.map Chunk.length).sum := by
  induction chunks generalizing n parts with
  | nil =>
    obtain rfl := length_eq_zero_iff.1 h.1
    rfl
  | cons chunk chunks ih =>
    cases parts with
    | nil => exact absurd h.1 (by simp)
    | cons raw parts =>
      have hraw : (raw.length : Int) = chunk.length := (h.2 0 (by simp) (by simp)).2.2.2.2.1
      have hrest : MatchedAll L store header (n + 1) chunks parts := by
        refine ⟨by simpa using h.1, fun i hc hp => ?_⟩
        have := h.2 (i + 1) (by simpa using hc) (by simpa using hp)
        rwa [show n + (i + 1) = n + 1 + i by omega] at this
      rw [flatten_cons, length_append, map_cons, sum_cons, ← ih hrest]
      omega

theorem restoreChunks_spec : ∀ {chunks : List Chunk} {T : Bytes} {n : Nat},
    (∀ c ∈ chunks, 0 ≤ c.compressed_size ∧ 0 ≤ c.length) →
      Triple (Working o T n) (restoreChunks L host store header chunks)
        (fun _ d => ∃ parts, MatchedAll L store header n chunks parts ∧
          Working o (T ++ parts.flatten) (n + chunks.length) d) (fun _ d => d.output = o)
  | [], T, n, _ => .pure fun d hd => ⟨[], ⟨rfl, fun i hi => by simp at hi⟩, by simpa using hd⟩
  | chunk :: chunks, T, n, hall => by
    obtain ⟨hsize, hlen⟩ := hall chunk (by simp)
    refine .bind (restoreChunk_spec hsize hlen) fun _ => .exists_pre fun raw => fact_pre fun hm => ?_
    refine conseq (restoreChunks_spec fun c hc => hall c (mem_cons_of_mem _ hc)) (fun d hd => hd)
      fun _ d ⟨parts, hparts, hd⟩ => ⟨raw :: parts, matchedAll_cons hm hparts, ?_⟩
    rw [flatten_cons, ← append_assoc, length_cons, Nat.add_comm chunks.length, ← Nat.add_assoc]
    exact hd

/-- Reading the manifest: nothing is written, and it is restorable. -/
theorem readManifest_spec {path : String} : Triple (fun d => d.output = o ∧ d.reads = n) (readManifest L store path)
      (fun m d => ((store n path).ok = true ∧ L.loadsManifest (store n path).blocks.flatten = some m ∧ Restorable m) ∧
        d.output = o ∧ d.reads = n + 1) (fun _ d => d.output = o) := by
  refine .bind (R := fun data d => ((store n path).ok = true ∧ data = (store n path).blocks.flatten) ∧
    d.output = o ∧ d.reads = n + 1) ?_ fun data => fact_pre fun ⟨hok, hdata⟩ => ?_
  · rintro d ⟨ho, rfl⟩
    unfold readStore
    cases hr : readAll (64 * BLOCK) (.valueError "manifest exceeds 64 MiB limit" "") path (store d.reads path) with
    | error e => exact ho
    | ok data =>
      obtain ⟨hok, hdata, -⟩ := (readAll_eq_ok (by decide)).1 hr
      exact ⟨⟨hok, hdata⟩, ho, rfl⟩
  subst hdata
  refine Triple.bind (R := fun m d => L.loadsManifest (store n path).blocks.flatten = some m ∧
    d.output = o ∧ d.reads = n + 1) (.ofExcept (fun m d hm hd => ⟨?_, hd⟩) fun _ d _ hd => hd.1) fun m =>
    fact_pre fun hm => ?_
  · unfold parseManifest at hm
    split at hm
    · cases hm
    · cases hm; assumption
  refine Triple.bind (R := fun _ d => Restorable m ∧ d.output = o ∧ d.reads = n + 1)
    (Triple.ofExcept (fun _ d hc hd => ⟨checkManifest_ok hc, hd⟩) fun _ d _ hd => hd.1) fun _ =>
    fact_pre fun hr => ?_
  exact Triple.pure fun d hd => ⟨⟨hok, hm, hr⟩, hd⟩

/-- The output was absent and now holds what the chunks of `m` unpack to. -/
def Restored (L : Python) (store : Store) (o : Option Bytes) (n : Nat) (m : Manifest) (d : Disk) : Prop :=
  o = none ∧ ∃ parts, MatchedAll L store m.header n m.chunks parts ∧ d.output = some parts.flatten

/-- A call behind the link raises. -/
def Host.Late (host : Host) : Prop := host.raises .syncDir = true ∨ host.raises .unlink = true

/-- Unpacking into the partial file, linking it, and what comes behind the link. -/
theorem body_spec (L : Python) (host : Host) (store : Store) {m : Manifest} (hr : Restorable m) :
    Triple (Working o [] n)
      (do
        restoreChunks L host store m.header m.chunks
        host.call .fsync
        linkTarget host
        host.call .syncDir)
      (fun _ d => host.raises .syncDir = false ∧ Restored L store o n m d)
      (fun _ d => d.output = o ∨ (host.raises .syncDir = true ∧ Restored L store o n m d)) := by
  have hpos : ∀ c ∈ m.chunks, 0 ≤ c.compressed_size ∧ 0 ≤ c.length := fun c hc => by
    obtain ⟨k, hk, rfl⟩ := getElem_of_mem hc
    obtain ⟨-, -, hl, -, hs⟩ := hr.layout k hk
    exact ⟨hs.le, hl.le⟩
  refine .bind (conseq_error (restoreChunks_spec hpos) fun _ d hd => .inl hd) fun _ => ?_
  refine .bind (Host.call_spec .fsync fun _ _ d ⟨_, _, ho, _⟩ => .inl ho) fun _ => fact_pre fun _ => ?_
  refine .bind (R := fun _ d => Restored L store o n m d) ?_ fun _ =>
    Host.call_spec .syncDir fun hsync _ d hd => .inr ⟨hsync, hd⟩
  refine .bind (Host.call_spec .link fun _ _ d ⟨_, _, ho, _⟩ => .inl ho) fun _ => fact_pre fun _ => ?_
  rintro d ⟨parts, hparts, ho, ht, -⟩
  dsimp only
  cases hw : d.output with
  | some data => exact .inl ho
  | none => exact ⟨ho ▸ hw, parts, hparts, by simpa using ht⟩

theorem withTarget_spec {body : Prog Disk Error Unit} {Q : Disk → Prop} (hQ : ∀ d t, Q d → Q { d with target := t })
    (hbody : Triple (Working o [] n) body (fun _ d => host.raises .syncDir = false ∧ Q d)
      (fun _ d => d.output = o ∨ (host.raises .syncDir = true ∧ Q d))) :
    Triple (fun d => d.output = o ∧ d.reads = n) (withTarget host body) (fun _ d => ¬ host.Late ∧ Q d)
      (fun _ d => d.output = o ∨ (host.Late ∧ Q d)) := by
  refine .bind (Host.call_spec .mkstemp fun _ _ d hd => .inl hd.1) fun _ => fact_pre fun _ => ?_
  rintro d ⟨ho, hreads⟩
  have hfinal := hbody { d with target := some [] } ⟨ho, rfl, hreads⟩
  dsimp only
  rcases hres : body { d with target := some [] } with ⟨e | u, d'⟩
  · rw [hres] at hfinal
    split_ifs with hunlink
    · exact hfinal.imp_right fun h => ⟨.inr hunlink, h.2⟩
    · exact hfinal.imp_right fun h => ⟨.inl h.1, hQ _ _ h.2⟩
  · rw [hres] at hfinal
    split_ifs with hunlink
    · exact .inr ⟨.inr hunlink, hfinal.2⟩
    · exact ⟨by simp [Host.Late, hfinal.1, hunlink], hQ _ _ hfinal.2⟩

/-- **The output is all or nothing**: it is as it was and `restore` raises, or it was absent and holds what the chunks
unpack to, and then `restore` raises just if a call behind the link does. -/
theorem restore_spec (L : Python) (host : Host) (store : Store) (path : String) (d : Disk) :
    Triple (fun d' => d' = d) (restore L host store path)
      (fun _ d' => ¬ host.Late ∧ ∃ m, L.loadsManifest (store d.reads path).blocks.flatten = some m ∧ Restorable m ∧
        Restored L store (d.output.or host.meanwhile) (d.reads + 1) m d')
      (fun _ d' => d'.output = d.output.or host.meanwhile ∨ host.Late ∧ ∃ m,
        L.loadsManifest (store d.reads path).blocks.flatten = some m ∧ Restorable m ∧
        Restored L store (d.output.or host.meanwhile) (d.reads + 1) m d') := by
  refine .bind (R := fun _ d' => d.output = none ∧ d'.output = host.meanwhile ∧ d'.reads = d.reads) ?_ fun _ =>
    fact_pre fun hnone => ?_
  · rintro d' rfl
    unfold checkOutput
    cases ho : d'.output with
    | some data => simp [ho]
    | none => exact ⟨rfl, rfl, rfl⟩
  rw [hnone, Option.none_or]
  refine .bind (conseq_error readManifest_spec fun _ _ h => .inl h) fun m => fact_pre fun ⟨_, hm, hr⟩ => ?_
  have hbody := withTarget_spec (n := d.reads + 1) (fun _ _ h => h)
    (body_spec L host store (o := host.meanwhile) hr)
  refine conseq_error (conseq hbody (fun d' hd => hd) fun _ d' hd => ⟨hd.1, m, hm, hr, hd.2⟩) ?_
  exact fun _ d' hd => hd.imp_right fun h => ⟨h.1, m, hm, hr, h.2⟩

end Spec

end ZClone.Recover
