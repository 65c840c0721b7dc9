import ZClone.Recover.RoundTrip

/-!
# Undisturbed invocations

An invocation that starts a session and is left alone completes (`upload_completes`), provided that gzip keeps within
the staging limit and the manifest within its own. In the terms of `Triple`, it returns and never stops.
-/

namespace ZClone.Recover

open Lib Lib.Prog List Function
open Triple (bind_eq fact_pre conseq)

/-- Nothing happens and every call is done. -/
def quiet (s : { s : String // isHex 32 s = true }) : Move where
  changes := 0
  staged := []
  objects := []
  outcome := .done
  written := 0
  copied := .faithful
  short := BLOCK
  blocks := []
  uuid := s

/-- A program that returns, with `Q`. -/
def Returns {α : Type} (P : World → Prop) (m : Prog World Error α) (Q : α → World → Prop) : Prop :=
  Triple P m Q fun _ _ => False

theorem Returns.run {α : Type} {P : World → Prop} {m : Prog World Error α} {Q : α → World → Prop}
    (h : Returns P m Q) {w : World} (hw : P w) : ∃ a, (m w).1 = .ok a ∧ Q a (m w).2 := by
  have hm := h w hw
  rcases hr : m w with ⟨e | a, w'⟩
  · rw [hr] at hm; exact hm.elim
  · rw [hr] at hm; exact ⟨a, rfl, hm⟩

/-- The world is left alone at version `v`, and only data in `K` were hashed. -/
structure Calm (s : { s : String // isHex 32 s = true }) (v : Nat) (K : Set Bytes) (w : World) : Prop where
  moves : w.moves = fun _ => quiet s
  version : w.version = v
  hashed : ∀ d ∈ w.hashed, d ∈ K

theorem Calm.hash {s : { s : String // isHex 32 s = true }} {v : Nat} {K : Set Bytes} {w : World} (h : Calm s v K w)
    {data : List Bytes} (hdata : ∀ d ∈ data, d ∈ K) : Calm s v K (w.hash data) :=
  { h with hashed := fun d hd => (mem_append.mp hd).elim (hdata d) (h.hashed d) }

theorem env_quiet (s : { s : String // isHex 32 s = true }) (w : World) :
    w.env (quiet s) = { w with time := w.time + 1 } := by
  have hstage : overlay w.stage (quiet s).staged = w.stage := rfl
  have hremote : (fun name => if name ∈ w.verified then w.remote name else overlay w.remote (quiet s).objects name) =
      w.remote := by
    funext name
    split_ifs
    · rfl
    · rfl
  unfold World.env
  rw [hstage, hremote]
  rfl

section Calls

variable {L : Python} {args : Args} {src : Nat → Source} {s : { s : String // isHex 32 s = true }} {v k : Nat}
  {K : Set Bytes}
  {α : Type} {R : World → Prop} {Q : α → World → Prop} {f : Move → World → Except Error α × World} {h : Header}
  {data : Bytes} {offset length : Int}

section Timeless

-- what is known does not depend on the time
variable (hR : ∀ w t, R w → R { w with time := t })

include hR

/-- A call in a calm world. -/
theorem call_returns (hf : Returns (fun w => Calm s v K w ∧ R w) (f (quiet s)) Q) :
    Returns (fun w => Calm s v K w ∧ R w) (call f) Q := by
  rintro w ⟨hc, hw⟩
  have hmove : w.moves w.time = quiet s := by rw [hc.moves]
  have hcall : call f w = f (quiet s) { w with time := w.time + 1 } := by
    unfold call
    rw [hmove, env_quiet]
  rw [hcall]
  exact hf _ ⟨{ hc with }, hR w _ hw⟩

theorem attempt_returns (hf : Returns (fun w => Calm s v K w ∧ R w) (f (quiet s)) Q) :
    Returns (fun w => Calm s v K w ∧ R w) (attempt f) Q :=
  call_returns hR hf

theorem currentIdentity_returns {id : Identity} (hid : identity args (src v) = .ok id) :
    Returns (fun w => Calm s v K w ∧ R w) (currentIdentity src args) fun id' w => id' = id ∧ Calm s v K w ∧ R w :=
  attempt_returns hR fun w hw => by
    rw [hw.1.version, hid]
    exact ⟨rfl, hw⟩

theorem checkIdentity_returns {id : Identity} (hid : identity args (src v) = .ok id) (msg : String) :
    Returns (fun w => Calm s v K w ∧ R w) (checkIdentity src args id msg) fun _ w => Calm s v K w ∧ R w := by
  refine bind_eq (currentIdentity_returns hR hid) ?_
  rw [if_neg (not_not.2 rfl)]
  exact .pure fun w hw => hw

theorem appendEvent_returns (j : Journal) (e : Event) (hR' : ∀ w file, R w → R { w with journal := file }) :
    Returns (fun w => Calm s v K w ∧ R w) (appendEvent L j e)
      fun j' w => j' = j.append L e ∧ Calm s v K w ∧ R w :=
  call_returns hR fun w hw => ⟨rfl, { hw.1 with }, hR' w _ hw.2⟩

end Timeless

/-- gzip keeps within the staging limit. -/
def Fits (L : Python) : Prop := ∀ (data : Bytes) (length : Int), (data.length : Int) ≤ length →
  (L.gzipTell data : Int) ≤ stagingLimit length ∧ ((L.gzip data).length : Int) ≤ stagingLimit length

theorem readRange_returns (hfit : Fits L) (hR : ∀ w t, R w → R { w with time := t })
    (ho : 0 ≤ offset) (hin : offset + length ≤ (src v).bytes.length) : ∀ (rounds : Nat) (data : Bytes),
      data <+: (src v).bytes.drop offset.toNat → (data.length : Int) ≤ length → length ≤ data.length + rounds →
      Returns (fun w => Calm s v K w ∧ R w) (readRange L src offset length rounds data)
        fun d w => (d <+: (src v).bytes.drop offset.toNat ∧ (d.length : Int) = length) ∧ Calm s v K w ∧ R w
  | 0, data, hpre, hle, hr => .pure fun w hw => ⟨⟨hpre, by omega⟩, hw⟩
  | rounds + 1, data, hpre, hle, hr => by
    rw [readRange]
    split_ifs with hdone
    · exact .pure fun w hw => ⟨⟨hpre, hdone⟩, hw⟩
    · refine .bind (R := fun block w => (block ≠ [] ∧ block.length ≤ (length - data.length).toNat ∧
        data ++ block <+: (src v).bytes.drop offset.toNat) ∧ Calm s v K w ∧ R w)
        (attempt_returns hR fun w hw => ⟨⟨?_, ?_, ?_⟩, hw⟩) fun block => fact_pre fun hread => ?_
      · rw [hw.1.version]
        intro hnil
        have hlen := congrArg List.length hnil
        have hblock : 0 < BLOCK := by decide
        rw [List.length_take, List.length_drop, List.length_nil] at hlen
        omega
      · rw [List.length_take]
        omega
      · obtain ⟨t, ht⟩ := hpre
        have hnat : (offset + data.length).toNat = offset.toNat + data.length := by omega
        rw [hw.1.version, hnat, ← List.drop_drop, ← ht, List.drop_left, List.prefix_append_right_inj]
        exact List.take_prefix _ _
      · obtain ⟨hne, hlen, hpre'⟩ := hread
        have hpos := List.length_pos_of_ne_nil hne
        have hlen' : ((data ++ block).length : Int) ≤ length := by rw [List.length_append]; omega
        rw [if_neg hne, if_neg (not_lt.2 (hfit _ _ hlen').1)]
        exact readRange_returns hfit hR ho hin rounds (data ++ block) hpre' hlen'
          (by rw [List.length_append]; omega)

/-- Preparing a chunk of the image stages it. -/
theorem prepare_returns (hfit : Fits L) (hpos : 0 < args.chunk_size)
    (hk : k < chunkCount args (src v).bytes) (hraw : rawChunk args (src v).bytes k ∈ K)
    (hgz : L.gzip (rawChunk args (src v).bytes k) ∈ K) (path : String) : Returns (fun w => Calm s v K w ∧ True)
      (prepare L src path k (offsetOf args k) (lengthOf args (src v).bytes k))
      fun c w => c = chunkAt L args (src v).bytes k ∧ Calm s v K w ∧
        w.stage path = some (L.gzip (rawChunk args (src v).bytes k)) := by
  have hoff : 0 ≤ offsetOf args k := Int.mul_nonneg (Int.natCast_nonneg k) hpos.le
  have hlt := offsetOf_lt hpos hk
  have hle : lengthOf args (src v).bytes k ≤ (src v).bytes.length - offsetOf args k := min_le_right _ _
  have hlen : 0 ≤ lengthOf args (src v).bytes k := by
    simp only [lengthOf, le_min_iff]
    omega
  refine .bind (readRange_returns hfit (fun _ _ h => h) hoff (by omega) _ [] nil_prefix
    (by simpa using hlen) (by simp)) fun data => fact_pre fun hread => ?_
  obtain ⟨hpre, hdata⟩ := hread
  obtain rfl := eq_rawChunk hpre hdata
  rw [if_neg (not_lt.2 (hfit _ _ hdata.le).2)]
  refine .bind (R := fun _ w => Calm s v K w ∧
    w.stage path = some (L.gzip (rawChunk args (src v).bytes k))) (attempt_returns (fun _ _ h => h) fun w hw => ?_)
    fun _ => .pure fun w hw => ⟨rfl, hw⟩
  exact ⟨{ hw.1.hash (forall_mem_cons.mpr ⟨hraw, forall_mem_singleton.mpr hgz⟩) with },
    update_self ..⟩

/-- Verifying what is there. -/
theorem verifyObject_returns {remote : String} (hK : data ∈ K) :
    Returns (fun w => Calm s v K w ∧ w.remote remote = some data)
      (verifyObject L remote data.length (L.sha256 data)) fun _ w => Calm s v K w ∧ True := by
  refine call_returns (fun _ _ h => h) fun w hw => ?_
  have hcalm : Calm s v K (w.hash (w.remote remote).toList) := hw.1.hash (by simpa [hw.2] using hK)
  have hread : (readObject (quiet s) (some data)).blocks.flatten = data := by
    unfold readObject
    dsimp only
    split_ifs with hb
    · exact hb
    · simp
  have hv : verify L remote data.length (L.sha256 data) (readObject (quiet s) (w.remote remote)) = .ok () := by
    rw [hw.2]
    exact verify_of_eq rfl hread
  rw [if_neg (by simp [quiet])]
  rw [hv]
  exact ⟨{ hcalm with }, trivial⟩

theorem hashStaged_returns {path : String} (hK : data ∈ K) :
    Returns (fun w => Calm s v K w ∧ w.stage path = some data) (hashStaged L path)
      fun staged w => staged = some ((data.length : Int), L.sha256 data) ∧ Calm s v K w ∧ w.stage path = some data :=
  attempt_returns (fun _ _ h => h) fun w hw => by
    rw [hw.2]
    exact ⟨rfl, hw.1.hash (forall_mem_singleton.mpr hK), hw.2⟩

/-- Uploading a staged chunk, which is not reconciled first. -/
theorem settle_returns {id : Identity} {index : Int}
    (hgz : L.gzip (rawChunk args (src v).bytes k) ∈ K) (path : String) (j : Journal) :
    Returns (fun w => Calm s v K w ∧ w.stage path = some (L.gzip (rawChunk args (src v).bytes k)))
      (settle L src args h id path index offset length false ⟨.prepared, chunkAt L args (src v).bytes k⟩ j)
      fun _ w => Calm s v K w ∧ True := by
  refine bind_eq (.pure fun w hw => ⟨rfl, hw⟩) ?_
  rw [if_pos rfl]
  refine .bind (R := fun _ w => Calm s v K w ∧ True) ?_ fun j' =>
    conseq (appendEvent_returns (fun _ _ h => h) j' _ fun _ _ h => h) (fun _ h => h) fun _ _ hw => hw.2
  -- the staged file is as recorded
  refine .bind (R := fun _ w => Calm s v K w ∧
    w.stage path = some (L.gzip (rawChunk args (src v).bytes k))) ?_ fun _ => ?_
  · refine bind_eq (hashStaged_returns hgz) ?_
    split_ifs with hsame
    · exact .pure fun w hw => hw
    · exact absurd rfl hsame
  refine .bind (R := fun _ w => Calm s v K w ∧ w.remote (objectName L args h (src v).bytes k) =
    some (L.gzip (rawChunk args (src v).bytes k))) (call_returns (fun _ _ h => h) fun w hw => ?_) fun _ => ?_
  · exact ⟨{ hw.1 with }, (update_self ..).trans hw.2⟩
  refine bind_eq (appendEvent_returns (fun _ _ h => h) j _ fun _ _ h => h) ?_
  exact .bind (verifyObject_returns hgz) fun _ => .pure fun w hw => hw

/-- The header that a session of the calm world starts with. -/
def newHeader (args : Args) (s : { s : String // isHex 32 s = true }) (id : Identity) : Header where
  version := VERSION
  session := s
  source := id
  destination := args.destination
  chunk_size := args.chunk_size
  compression := "gzip-level-6-mtime-0"

/-- The header is written. -/
theorem ensureHeader_returns (id : Identity) :
    Returns (fun w => Calm s v K w ∧ True) (ensureHeader L args id (Journal.ofEvents L []))
      fun j w => j = Journal.ofEvents L [.header (newHeader args s id)] ∧ Calm s v K w ∧ True := by
  unfold ensureHeader
  rw [if_pos (show (Journal.ofEvents L []).events = [] from rfl)]
  refine bind_eq (attempt_returns (fun _ _ h => h) fun w hw => ⟨rfl, hw⟩) ?_
  refine conseq (appendEvent_returns (fun _ _ h => h) _ _ fun _ _ h => h) (fun _ h => h) fun j w hw => ?_
  rw [Journal.append_ofEvents] at hw
  exact hw

section

variable (hfit : Fits L) (hpos : 0 < args.chunk_size) {id : Identity} (hid : identity args (src v) = .ok id)

include hfit hpos hid

theorem uploadChunk_returns (hk : k < chunkCount args (src v).bytes)
    (hraw : rawChunk args (src v).bytes k ∈ K) (hgz : L.gzip (rawChunk args (src v).bytes k) ∈ K)
    (r : Journal × List Chunk) :
    Returns (fun w => Calm s v K w ∧ True) (uploadChunk L src args h id ∅ r ((k : Int), offsetOf args k))
      fun r' w => r'.2 = r.2 ++ [chunkAt L args (src v).bytes k] ∧ Calm s v K w ∧ True := by
  have hlen : min args.chunk_size (id.size - offsetOf args k) = lengthOf args (src v).bytes k := by
    rw [(identity_size hid).1, lengthOf]
  have hnone : (∅ : AList fun _ : Int => ChunkEvent).lookup (k : Int) = none := AList.lookup_empty _
  obtain ⟨j, chunks⟩ := r
  simp only [uploadChunk, hnone, chunkEvent, hlen]
  refine .bind (R := fun r w => r.2 = ⟨.prepared, chunkAt L args (src v).bytes k⟩ ∧ Calm s v K w ∧
    w.stage (stagePath h k) = some (L.gzip (rawChunk args (src v).bytes k))) ?_ fun r => ?_
  · refine bind_eq (prepare_returns hfit hpos hk hraw hgz _) ?_
    refine .bind (checkIdentity_returns (fun _ _ h => h) hid _) fun _ => ?_
    refine bind_eq (appendEvent_returns (fun _ _ h => h) j _ fun _ _ h => h) ?_
    exact .pure fun w hw => ⟨rfl, hw⟩
  · obtain ⟨j', event⟩ := r
    refine fact_pre fun he => ?_
    subst he
    rw [if_neg (by simp)]
    refine .bind (settle_returns hgz _ j') fun j'' => ?_
    refine .bind (R := fun _ w => Calm s v K w ∧ True) (attempt_returns (fun _ _ h => h) fun w hw => ?_)
      fun _ => .pure fun w hw => ⟨rfl, hw⟩
    exact ⟨{ hw.1 with }, trivial⟩

/-- The chunk loop of a new session. -/
theorem chunkLoop_returns (hraw : ∀ k < chunkCount args (src v).bytes, rawChunk args (src v).bytes k ∈ K)
    (hgz : ∀ k < chunkCount args (src v).bytes, L.gzip (rawChunk args (src v).bytes k) ∈ K) (j : Journal) :
    Returns (fun w => Calm s v K w ∧ True)
      ((ranges (src v).bytes.length args.chunk_size).foldlM (uploadChunk L src args h id ∅) (j, []))
      fun r w => r.2 = (List.range (chunkCount args (src v).bytes)).map (chunkAt L args (src v).bytes) ∧
        Calm s v K w ∧ True := by
  refine conseq (.foldlM (I := fun done r w => r.2 = (List.range done.length).map
    (chunkAt L args (src v).bytes) ∧ Calm s v K w ∧ True)
    (ranges (src v).bytes.length args.chunk_size) [] (j, []) fun pre x post r heq => ?_) (fun w hw => ⟨rfl, hw⟩)
    fun _ _ hw => hw
  obtain ⟨rfl, -⟩ := ranges_split hpos heq
  have hk : pre.length < chunkCount args (src v).bytes := by
    have := congrArg length heq
    simp only [nil_append, length_append, length_cons] at this
    rw [chunkCount, this]
    omega
  refine fact_pre fun hr => ?_
  refine conseq (uploadChunk_returns hfit hpos hid hk (hraw _ hk) (hgz _ hk) r) (fun _ h => h)
    fun r' w hw => ⟨?_, hw.2⟩
  rw [hw.1, hr, length_append, length_singleton, range_succ, map_append]
  rfl

end

theorem publish_returns {m : Manifest} (hm : L.encodeManifest m ∈ K)
    (hsmall : (L.encodeManifest m).length ≤ 64 * BLOCK) :
    Returns (fun w => Calm s v K w ∧ True) (publish L args m) fun _ w => Calm s v K w ∧ True := by
  unfold publish
  rw [if_neg (by omega)]
  refine .bind (R := fun _ w => Calm s v K w ∧
    w.remote (remotePath args.destination (manifestName m.header)) = some (L.encodeManifest m))
    (call_returns (fun _ _ h => h) fun w hw => ?_) fun _ => ?_
  · exact ⟨{ hw.1 with }, update_self ..⟩
  refine .bind (R := fun _ w => Calm s v K w ∧
    w.remote (remotePath args.destination (manifestName m.header)) = some (L.encodeManifest m))
    (attempt_returns (fun _ _ h => h) fun w hw => ?_) fun _ => ?_
  · exact ⟨hw.1.hash (forall_mem_singleton.mpr hm), hw.2⟩
  · exact .bind (verifyObject_returns hm) fun _ => .pure fun w hw => hw

section

variable (hfit : Fits L) (hpos : 0 < args.chunk_size) (hretries : 0 < args.retries)
  (hstage : args.journal_in_stage = false) {id : Identity} (hid : identity args (src v) = .ok id)
  (hraw : ∀ k < chunkCount args (src v).bytes, rawChunk args (src v).bytes k ∈ K)
  (hgz : ∀ k < chunkCount args (src v).bytes, L.gzip (rawChunk args (src v).bytes k) ∈ K)

include hfit hpos hretries hstage hid hraw hgz

theorem uploadChunks_returns : Returns (fun w => Calm s v K w ∧ w.journal = []) (uploadChunks L src args)
      fun m w => m = manifestOf L args (newHeader args s id) (src v).bytes ∧ Calm s v K w ∧ True := by
  unfold uploadChunks
  rw [if_neg (by omega), if_neg (by rw [hstage]; simp)]
  refine bind_eq (b := .ofEvents L []) (R := fun w => Calm s v K w ∧ True)
    (attempt_returns (fun _ _ h => h) fun w hw => ?_) ?_
  · have hopen : Journal.enter L w.journal = .ok (Journal.ofEvents L []) := by
      rw [hw.2]
      exact Journal.enter_render [] (t := []) (by simp)
    rw [hopen]
    exact ⟨rfl, { hw.1 with }, trivial⟩
  refine bind_eq (currentIdentity_returns (fun _ _ h => h) hid) ?_
  refine bind_eq (ensureHeader_returns id) ?_
  have hheader : checkHeader args id (.ofEvents L [.header (newHeader args s id)]) =
      .ok (newHeader args s id) := by
    simp [checkHeader, Journal.ofEvents, newHeader]
  rw [hheader]
  refine bind_eq (.pure fun w hw => ⟨rfl, hw⟩) ?_
  refine bind_eq (b := .start) (.pure fun w hw => ⟨rfl, hw⟩) ?_
  rw [(identity_size hid).1]
  refine .bind (chunkLoop_returns hfit hpos hid hraw hgz _) fun r => ?_
  obtain ⟨j, chunks⟩ := r
  refine fact_pre fun hr => ?_
  subst hr
  dsimp only
  rw [if_neg (by simp [Replay.start])]
  exact .bind (checkIdentity_returns (fun _ _ h => h) hid _) fun _ => .pure fun w hw => ⟨rfl, hw⟩

/-- **An undisturbed first invocation completes.** -/
theorem upload_completes (hm : L.encodeManifest (manifestOf L args (newHeader args s id) (src v).bytes) ∈ K)
    (hsmall : (L.encodeManifest (manifestOf L args (newHeader args s id) (src v).bytes)).length ≤ 64 * BLOCK) :
    Returns (fun w => Calm s v K w ∧ w.journal = []) (upload L src args) fun _ w => Calm s v K w ∧ True := by
  exact bind_eq (uploadChunks_returns hfit hpos hretries hstage hid hraw hgz) (publish_returns hm hsmall)

end

end Calls

end ZClone.Recover
