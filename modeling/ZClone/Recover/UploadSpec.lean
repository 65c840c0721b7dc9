import ZClone.Recover.Durable

/-!
# Rules for the calls and the program

Every call of `upload` has a rule: from a journal with these contents and a monotone predicate `R` it returns with both
and what it found out, or stops in a `Durable` world with an error that is no refusal of the journal. The rules compose
to that of the whole program (`upload_spec`).
-/

namespace ZClone.Recover

open Lib Lib.Prog List
open Journal (ofEvents render line)
open Triple (exists_pre fact_pre conseq conseq_error)

/-- The errors that say that the journal cannot be resumed from. -/
def refusals : List Error :=
  [Journal.refusing, Replay.invalidTransition, .valueError "invalid chunk layout" "",
   .valueError "invalid compressed chunk size" "", .valueError "invalid chunk checksum" "",
   .valueError "journal contains chunks beyond the source size" ""]

variable (L : Python) (args : Args) (src : Nat → Source)

/-- How an invocation stops: with what survives, and without a refusal. -/
def Stopped (e : Error) (w : World) : Prop := Durable L args src w ∧ e ∉ refusals

/-- The journal file is `file`, and `R`. -/
def On (file : Bytes) (R : World → Prop) (w : World) : Prop := w.journal = file ∧ R w

/-- A stop is fine wherever `R` holds. -/
def Safe (file : Bytes) (R : World → Prop) : Prop := ∀ w, On file R w → Durable L args src w

variable {L args src} {h : Header} {B : Bytes} {k : Nat} {w : World}

variable {index offset length : Int} {start groups : List (Chunk × List State)} {r : Journal × List Chunk}
  {states : AList fun _ : Int => ChunkEvent} {e : Error} {chunks : List Chunk} {R : World → Prop} {replayed : Replay}
  {es : List Event} {X : Set String} {j : Journal} {data : Bytes}

/-! ## Rules for the calls -/

section Calls

variable {file : Bytes} {R : World → Prop} {α : Type} {Q : α → World → Prop} {f : Move → World → Except Error α × World}
  {remote : String}

theorem call_spec {E : Error → World → Prop} (hR : Mono ∅ R)
    (hf : ∀ m, Triple (On file R) (f m) Q E) : Triple (On file R) (call f) Q E :=
  fun w hw => hf _ _ ⟨hw.1, hR (env_extends w _) hw.2⟩

theorem identity_error {info : Source} (h : identity args info = .error e) : e ∉ refusals := by
  unfold identity at h
  split at h
  · split_ifs at h <;> cases h <;> decide
  · split at h
    · split_ifs at h <;> cases h <;> decide
    · cases h; decide
  · cases h; decide

theorem osError_notMem (msg about : String) : Error.osError msg about ∉ refusals := by
  simp [refusals, Journal.refusing, Replay.invalidTransition]

section Attempts

variable (hR : Mono ∅ R) (hsafe : Safe L args src file R)

include hR hsafe

theorem attempt_spec (hf : ∀ m, Triple (On file R) (f m) Q (Stopped L args src)) :
    Triple (On file R) (attempt f) Q (Stopped L args src) := by
  refine call_spec hR fun m w hw => ?_
  cases m.outcome with
  | done => exact hf m w hw
  | fails msg => exact ⟨hsafe w hw, osError_notMem msg ""⟩
  | crashes => exact ⟨hsafe w hw, by decide⟩

theorem currentIdentity_spec : Triple (On file R) (currentIdentity src args)
      (fun id w => On file R w ∧ identity args (src w.version) = .ok id) (Stopped L args src) := by
  refine attempt_spec hR hsafe fun m w hw => ?_
  cases hid : identity args (src w.version) with
  | error e => exact ⟨hsafe w hw, identity_error hid⟩
  | ok id => exact ⟨hw, hid⟩

theorem checkIdentity_spec {id : Identity} {msg : String} (hmsg : Error.valueError msg "" ∉ refusals) :
    Triple (On file R) (checkIdentity src args id msg)
      (fun _ w => On file R w ∧ identity args (src w.version) = .ok id) (Stopped L args src) := by
  refine .bind (currentIdentity_spec hR hsafe) fun id' => ?_
  split_ifs with h
  · exact .throw fun w hw => ⟨hsafe w hw.1, hmsg⟩
  · obtain rfl := not_not.1 h
    exact .pure fun w hw => hw

theorem hashStaged_spec (path : String) :
    Triple (On file R) (hashStaged L path) (fun _ => On file R) (Stopped L args src) := by
  refine attempt_spec hR hsafe fun m w hw => ?_
  cases w.stage path with
  | none => exact hw
  | some data => exact ⟨hw.1, hR (hash_extends w _) hw.2⟩

theorem unlinkStaged_spec (path : String) :
    Triple (On file R) (unlinkStaged path) (fun _ => On file R) (Stopped L args src) :=
  attempt_spec hR hsafe fun _ w hw => ⟨hw.1, hR (w := w) ⟨le_rfl, fun _ h => h, fun _ h _ => ⟨h, rfl⟩⟩ hw.2⟩

theorem replaceStaged_spec (path : String) (raw compressed : Bytes) :
    Triple (On file R) (replaceStaged path raw compressed) (fun _ w => On file R w ∧ compressed ∈ w.hashed)
      (Stopped L args src) :=
  attempt_spec hR hsafe fun _ w hw =>
    ⟨⟨hw.1, hR (w := w) ⟨le_rfl, fun _ h => mem_append_right _ h, fun _ h _ => ⟨h, rfl⟩⟩ hw.2⟩, by simp [World.hash]⟩

end Attempts

/-- Writing an object keeps what does not depend on it. -/
theorem uploadObject_spec (hR : Mono {remote} R) (hsafe : Safe L args src file R) (content : World → Option Bytes) :
    Triple (On file R) (uploadObject content remote) (fun _ => On file R) (Stopped L args src) := by
  refine call_spec hR.weaken fun m w hw => ?_
  have hw' : ∀ object, On file R { w with
      remote := Function.update w.remote remote object
      verified := w.verified.filter (· ≠ remote) } := fun object => by
    refine ⟨hw.1, hR (w := w) ⟨le_rfl, fun _ h => h, fun name hn hX => ?_⟩ hw.2⟩
    have hne : name ≠ remote := hX
    exact ⟨mem_filter.2 ⟨hn, by simpa using hne⟩, Function.update_of_ne hne _ _⟩
  cases m.outcome with
  | done => exact hw' _
  | fails _ | crashes => exact ⟨hsafe _ (hw' _), by decide⟩

theorem verify_error_notMem {hash : String} {size : Int} {r : ReadResult}
    (h : verify L remote size hash r = .error e) : e ∉ refusals := by
  have := verify_error h
  simp only [mem_cons, not_mem_nil, or_false] at this
  rcases this with rfl | rfl | rfl <;> simp [refusals, Journal.refusing, Replay.invalidTransition]

theorem readObject_ok {m : Move} {object : Option Bytes} (h : (readObject m object).ok = true) :
    object = some (readObject m object).blocks.flatten := by
  unfold readObject at h ⊢
  cases object with
  | none => cases h
  | some data =>
    dsimp only
    split_ifs with hb
    · rw [hb]
    · simp

/-- **What a verified object holds**: the recorded data, whose hash was taken when it was recorded. If the
verification fails, nothing is lost. -/
theorem verifyObject_spec (hR : Mono ∅ R) (hdata : ∀ w, R w → data ∈ w.hashed) :
    Triple (On file R) (verifyObject L remote data.length (L.sha256 data))
      (fun _ w => On file R w ∧ Held L remote data w) (fun e w => On file R w ∧ e ∉ refusals) := by
  refine call_spec hR fun m w hw => ?_
  by_cases hc : m.outcome = .crashes
  · rw [if_pos hc]
    exact ⟨hw, by decide⟩
  · rw [if_neg hc]
    have hR' : R (w.hash (w.remote remote).toList) := hR (hash_extends w _) hw.2
    cases hv : verify L remote data.length (L.sha256 data) (readObject m (w.remote remote)) with
    | error e =>
      exact ⟨⟨hw.1, hR'⟩, verify_error_notMem hv⟩
    | ok u =>
      obtain ⟨hok, -, hsha⟩ := verify_ok hv
      have hobj := readObject_ok hok
      have hext : Extends ∅ (w.hash (w.remote remote).toList) { w.hash (w.remote remote).toList with
          verified := remote :: (w.hash (w.remote remote).toList).verified } :=
        ⟨le_rfl, fun _ h => h, fun _ h _ => ⟨mem_cons_of_mem _ h, rfl⟩⟩
      refine ⟨⟨hw.1, hR hext hR'⟩, mem_cons_self, fun hi => ?_⟩
      have hmem : (readObject m (w.remote remote)).blocks.flatten ∈ (w.hash (w.remote remote).toList).hashed := by
        refine mem_append_left _ (Option.mem_toList.2 ?_)
        exact hobj
      have heq := hi hmem (hdata (w.hash (w.remote remote).toList) hR') hsha
      rw [← heq]
      exact hobj

/-- Opening the journal. -/
theorem openJournal_spec (hR : Mono ∅ R) : Triple (fun w => Durable L args src w ∧ R w) (openJournal L)
    (fun j w => ∃ es, j = ofEvents L es ∧
      On (render L es) (fun w => EventsHold L args src es w ∧ R w) w) (Stopped L args src) := by
  rintro w ⟨⟨es, t, hfile, ht, hes⟩, hw⟩
  have hsafe : Safe L args src (render L es ++ t) fun w => EventsHold L args src es w ∧ R w :=
    fun w hw => ⟨es, t, hw.1, ht, hw.2.1⟩
  have hmono : Mono ∅ fun w => EventsHold L args src es w ∧ R w := EventsHold.mono.and hR
  refine attempt_spec hmono hsafe (fun m w hw => ?_) w ⟨hfile, hes, hw⟩
  rw [hw.1, Journal.enter_render es ht]
  exact ⟨es, rfl, rfl, hmono (w := w) ⟨le_rfl, fun _ h => h, fun _ h _ => ⟨h, rfl⟩⟩ hw.2⟩

/-- A part of the line of `e` after the journal of `es` is the journal with or without it, and a rest. -/
theorem render_append_take (es : List Event) (e : Event) (n : Nat) :
    ∃ t, 10 ∉ t ∧ (render L es ++ (line L (ofEvents L es).digest e).take n =
        render L es ++ t ∨ render L es ++ (line L (ofEvents L es).digest e).take n =
        render L (es ++ [e]) ++ t) := by
  have hline : (Journal.codec L).render (Journal.chainedDigest L es) [e] =
      line L (ofEvents L es).digest e := by simp [RowCodec.render_cons]; rfl
  have hpre := take_prefix n (line L (ofEvents L es).digest e)
  rw [← hline] at hpre
  obtain ⟨fs, gs, t, hfs, ht, hnl⟩ := RowCodec.prefix_render hpre
  rw [hline] at ht
  refine ⟨t, hnl, ?_⟩
  have happ : ∀ xs, render L (es ++ xs) =
      render L es ++ (Journal.codec L).render (Journal.chainedDigest L es) xs :=
    fun xs => RowCodec.render_append _ _ _
  cases fs with
  | nil => exact .inl (by rw [ht]; rfl)
  | cons f fs =>
    obtain ⟨rfl, hnil⟩ := cons.inj hfs
    obtain ⟨rfl, rfl⟩ := append_eq_nil_iff.1 hnil.symm
    exact .inr (by rw [ht, happ, append_assoc])

/-- **Appending an event** that holds: wherever the write stops, the journal is one of events that hold. -/
theorem appendEvent_spec {e : Event} (hR : Mono ∅ R) (hes : ∀ w, R w → EventsHold L args src es w)
    (hes' : ∀ w, R w → EventsHold L args src (es ++ [e]) w) :
    Triple (On (render L es) R) (appendEvent L (ofEvents L es) e)
      (fun j w => j = ofEvents L (es ++ [e]) ∧ On (render L (es ++ [e])) R w) (Stopped L args src) := by
  refine call_spec hR fun m w hw => ?_
  have hR' : ∀ file, R { w with journal := file } := fun file =>
    hR (w := w) ⟨le_rfl, fun _ h => h, fun _ h _ => ⟨h, rfl⟩⟩ hw.2
  have hstop : Durable L args src { w with
      journal := w.journal ++ (line L (ofEvents L es).digest e).take m.written } := by
    obtain ⟨t, ht, heq | heq⟩ := render_append_take (L := L) es e m.written
    · exact ⟨es, t, by rw [hw.1]; exact heq, ht, hes _ (hR' _)⟩
    · exact ⟨es ++ [e], t, by rw [hw.1]; exact heq, ht, hes' _ (hR' _)⟩
  cases m.outcome with
  | done =>
    refine ⟨Journal.append_ofEvents es e, ?_, hR' _⟩
    have := congrArg Journal.file (Journal.append_ofEvents (L := L) es e)
    rw [hw.1]
    exact this
  | fails msg => exact ⟨hstop, osError_notMem msg ""⟩
  | crashes => exact ⟨hstop, by decide⟩

end Calls

/-! ## Preparing -/

section Prepare

variable {file : Bytes} {R : World → Prop} {v : Nat}

/-- If the source was steady since version `v`, `data` are its bytes from `offset` on. -/
def Seen (src : Nat → Source) (v : Nat) (offset : Int) (data : Bytes) (w : World) : Prop :=
  ∀ B, Steady src v w.version B → data <+: B.drop offset.toNat

theorem Seen.mono {offset : Int} : Mono X (Seen src v offset data) :=
  fun _ _ he h B hB => h B fun t hu ht => hB t hu (ht.trans he.version_le)

variable (hR : Mono ∅ R) (hsafe : Safe L args src file R) (hv : ∀ w, R w → v ≤ w.version) (ho : 0 ≤ offset)
  {path : String}

include hR hsafe hv ho

/-- One read more. -/
theorem pread_spec (data : Bytes) (n : Nat) :
    Triple (On file fun w => R w ∧ Seen src v offset data w) (pread src n (offset + data.length).toNat)
      (fun block w => On file (fun w => R w ∧ Seen src v offset (data ++ block) w) w ∧ block.length ≤ n)
      (Stopped L args src) := by
  refine attempt_spec (hR.and .mono) (fun w hw => hsafe w ⟨hw.1, hw.2.1⟩) fun m w hw => ?_
  refine ⟨⟨hw.1, hw.2.1, fun B hB => ?_⟩, ?_⟩
  · obtain ⟨t, ht⟩ := hw.2.2 B hB
    have hnat : (offset + data.length).toNat = offset.toNat + data.length := by omega
    rw [hB w.version (hv w hw.2.1) le_rfl, hnat, ← drop_drop, ← ht, drop_left,
      prefix_append_right_inj]
    exact take_prefix _ _
  · rw [length_take]
    omega

/-- **The reading loop**: it returns the whole range, by the rounds it has. -/
theorem readRange_spec : ∀ (rounds : Nat) (data : Bytes), (data.length : Int) ≤ length → length ≤ data.length + rounds →
      Triple (On file fun w => R w ∧ Seen src v offset data w) (readRange L src offset length rounds data)
        (fun d w => On file (fun w => R w ∧ Seen src v offset d w) w ∧ (d.length : Int) = length) (Stopped L args src)
  | 0, data, hle, hr => .pure fun w hw => ⟨hw, by omega⟩
  | rounds + 1, data, hle, hr => by
    rw [readRange]
    split_ifs with hdone
    · exact .pure fun w hw => ⟨hw, hdone⟩
    · refine .bind (pread_spec hR hsafe hv ho data _) fun block => ?_
      have hstop : ∀ (e : Error), e ∉ refusals → ∀ w,
          On file (fun w => R w ∧ Seen src v offset (data ++ block) w) w ∧
            block.length ≤ min BLOCK (length - data.length).toNat → Stopped L args src e w :=
        fun e he w hw => ⟨hsafe w ⟨hw.1.1, hw.1.2.1⟩, he⟩
      split_ifs with hnil htell
      · exact .throw (hstop _ (osError_notMem _ _))
      · exact .throw (hstop _ (by decide))
      · intro w ⟨hw, hblock⟩
        have hpos := length_pos_of_ne_nil hnil
        exact readRange_spec rounds (data ++ block) (by rw [length_append]; omega)
          (by rw [length_append]; omega) w hw

/-- What `prepare` returns is the record of what it read. -/
theorem prepare_spec (hl : 0 ≤ length) : Triple (On file R) (prepare L src path index offset length)
      (fun c w => ∃ data, c = record L data index offset length ∧ (data.length : Int) = length ∧
        ((L.gzip data).length : Int) ≤ stagingLimit length ∧
        On file (fun w => (R w ∧ Seen src v offset data w) ∧ L.gzip data ∈ w.hashed) w) (Stopped L args src) := by
  have hread := readRange_spec (L := L) hR hsafe hv ho length.toNat [] (by simpa using hl) (by simp)
  refine .bind (fun w hw => hread w ⟨hw.1, hw.2, fun B _ => nil_prefix⟩) fun data => ?_
  split_ifs with hlim
  · exact .throw fun w hw => ⟨hsafe w ⟨hw.1.1, hw.1.2.1⟩, by decide⟩
  · intro w ⟨hw, hlen⟩
    have hsafe' : Safe L args src file fun w => R w ∧ Seen src v offset data w := fun w hw => hsafe w ⟨hw.1, hw.2.1⟩
    refine Triple.bind (replaceStaged_spec (hR.and Seen.mono) hsafe' path data (L.gzip data)) (fun u => ?_) w hw
    exact Triple.pure fun w hw => ⟨data, rfl, hlen, by omega, hw.1.1, hw.1.2, hw.2⟩

theorem ensureStaged_spec {id : Identity} (hl : 0 ≤ length) (c : Chunk) :
    Triple (On file R) (ensureStaged L src args id path index offset length c) (fun _ => On file R)
      (Stopped L args src) := by
  refine .bind (hashStaged_spec hR hsafe path) fun staged => ?_
  split_ifs with hstaged
  · exact .pure fun w hw => hw
  · refine .bind (R := fun _ => On file R) ?_ fun regenerated => ?_
    · refine conseq (prepare_spec hR hsafe hv ho hl) (fun w hw => hw) fun c w hw => ?_
      obtain ⟨data, -, -, -, hw⟩ := hw
      exact ⟨hw.1, hw.2.1.1⟩
    · have hdiffers : ∀ w, On file R w → Stopped L args src
          (.valueError "regenerated chunk differs from journal; refusing to replace recovered bytes" "") w :=
        fun w hw => ⟨hsafe w hw, by decide⟩
      split_ifs with hc
      · exact .throw hdiffers
      · refine .bind (currentIdentity_spec hR hsafe) fun id' => ?_
        split_ifs
        · exact .throw fun w hw => hdiffers w hw.1
        · exact .pure fun w hw => hw.1

end Prepare

/-! ## The chunk loop -/

section Chunks

variable {v : Nat} {groups : List (Chunk × List State)} {c : Chunk} {p : List State} {s : State}

/-- The journal of a session. -/
abbrev sessionJournal (L : Python) (h : Header) (groups : List (Chunk × List State)) : Journal :=
  ofEvents L (sessionEvents h groups)

/-- One more chunk of the image. -/
abbrev withChunk (L : Python) (args : Args) (B : Bytes) (groups : List (Chunk × List State)) (p : List State) :
    List (Chunk × List State) := groups ++ [(chunkAt L args B groups.length, p)]

theorem Ongoing.mono_empty : Mono ∅ (Ongoing L args src h v B groups) :=
  .mono fun _ _ _ => Set.notMem_empty _

/-- Uploading the object of the last chunk, while it is not verified, keeps the records. -/
theorem Ongoing.mono_last (hlast : p.getLast? = some s) (hnv : s ≠ .verified) :
    Mono {objectName L args h B groups.length} (Ongoing L args src h v B (groups ++ [(c, p)])) := by
  refine .mono fun k hk hv => ?_
  have hne : k ≠ groups.length := by
    rintro rfl
    simp only [getElem_concat_length, hlast] at hv
    exact hnv (Option.some.inj hv)
  exact objectName_ne hne

/-- What was read of a source that turns out steady is the chunk. -/
theorem eq_rawChunk (hpre : data <+: B.drop (offsetOf args k).toNat)
    (hlen : (data.length : Int) = lengthOf args B k) : data = rawChunk args B k := by
  rw [rawChunk, slice, ← hlen, Int.toNat_natCast]
  exact prefix_iff_eq_take.1 hpre

theorem validateChunk_chunkAt (hp : Prepared L args B k w) :
    validateChunk (chunkAt L args B k) k (offsetOf args k) (lengthOf args B k) = .ok () := by
  refine validateChunk_eq_ok.2 ⟨⟨rfl, rfl, rfl⟩, ⟨?_, hp.limit⟩, L.isHex_sha256 _, L.isHex_sha256 _⟩
  have := length_pos_of_ne_nil (L.gzip_ne_nil (rawChunk args B k))
  exact Int.natCast_pos.2 this

/-- How far the chunk loop is after `k` rounds: the chunks before `k` are verified, those from `k` on are as they were
at the start. -/
structure Progress (L : Python) (args : Args) (B : Bytes) (h : Header) (start : List (Chunk × List State)) (k : Nat)
    (r : Journal × List Chunk) (groups : List (Chunk × List State)) : Prop where
  journal : r.1 = ofEvents L (sessionEvents h groups)
  chunks : r.2 = (List.range k).map (chunkAt L args B)
  length : groups.length = max k start.length
  rest : ∀ i, k ≤ i → groups[i]? = start[i]?
  done : ∀ i (hi : i < groups.length), i < k → groups[i].2.getLast? = some .verified

section

variable (L : Python) (args : Args) (src : Nat → Source)

/-- The journal of the session, with what it says. -/
def InSession (h : Header) (v : Nat) (B : Bytes) (groups : List (Chunk × List State)) (R : World → Prop) :
    World → Prop :=
  On (render L (sessionEvents h groups)) fun w => Ongoing L args src h v B groups w ∧ R w

/-- The journal is that of the session, with what it says. -/
def Journaled (h : Header) (v : Nat) (B : Bytes)
    (groups : List (Chunk × List State)) (R : World → Prop) (j : Journal) (w : World) : Prop :=
  j = sessionJournal L h groups ∧ InSession L args src h v B groups R w

/-- The chunk is recorded, and may be verified next. -/
def Verifiable (h : Header) (v : Nat) (B : Bytes)
    (groups : List (Chunk × List State)) (c : Chunk) (R : World → Prop) (j : Journal) (w : World) : Prop :=
  ∃ p s, (p.getLast? = some s ∧ (s, State.verified) ∈ Replay.transitions) ∧
    Journaled L args src h v B (groups ++ [(c, p)]) R j w

/-- The loop's invariant. -/
def LoopInv (h : Header) (v : Nat) (start : List (Chunk × List State))
    (k : Nat) (r : Journal × List Chunk) (w : World) : Prop :=
  ∃ B groups, Progress L args B h start k r groups ∧ InSession L args src h v B groups (fun _ => True) w

end

/-- Verifying the object of the last chunk. -/
theorem verifyLast_spec (hR : Mono ∅ R) : Triple (InSession L args src h v B (groups ++ [(c, p)]) R)
      (verifyObject L (objectName L args h B groups.length)
        (L.gzip (rawChunk args B groups.length)).length
        (L.sha256 (L.gzip (rawChunk args B groups.length))))
      (fun _ => InSession L args src h v B (groups ++ [(c, p)]) fun w => R w ∧ HeldChunk L args h B groups.length w)
      (fun e w => InSession L args src h v B (groups ++ [(c, p)]) R w ∧ e ∉ refusals) :=
  conseq (verifyObject_spec (Ongoing.mono_empty.and hR) fun _ hw =>
      (hw.1.recorded.chunk groups.length (by simp)).2.hashed) (fun _ hw => hw) fun _ _ hw =>
        ⟨hw.1.1, hw.1.2.1, hw.1.2.2, hw.2⟩

/-- A chunk that was verified before. -/
theorem Progress.skip (hp : Progress L args B h start k r groups) (hk : k < start.length)
    (hv : ∀ hi : k < groups.length, groups[k].2.getLast? = some .verified) :
    Progress L args B h start (k + 1) (r.1, r.2 ++ [chunkAt L args B k]) groups where
  journal := hp.journal
  chunks := by rw [hp.chunks, range_succ, map_append]; rfl
  length := by rw [hp.length]; omega
  rest i hi := hp.rest i (by omega)
  done i hi hlt := by
    by_cases hik : i = k
    · subst hik; exact hv hi
    · exact hp.done i hi (by omega)

/-- The last recorded chunk, settled. -/
theorem progress_settled (hstart : start.length ≤ groups.length + 1)
    (hdone : ∀ i (hi : i < groups.length), groups[i].2.getLast? = some .verified)
    (hchunks : chunks = (List.range groups.length).map (chunkAt L args B)) (hv : p.getLast? = some .verified)
    (hj : j = sessionJournal L h (withChunk L args B groups p)) :
    Progress L args B h start (groups.length + 1) (j, chunks ++ [chunkAt L args B groups.length])
      (withChunk L args B groups p) where
  journal := hj
  chunks := by rw [hchunks, range_succ, map_append]; rfl
  length := by simp; omega
  rest i hi := by rw [getElem?_eq_none (by simp; omega), getElem?_eq_none (by omega)]
  done i hi hlt := by
    by_cases hik : i < groups.length
    · rw [getElem_append_left hik]; exact hdone i hik
    · obtain rfl : i = groups.length := by omega
      simpa using hv

variable (hs : SessionOf args src h v)

include hs

theorem safe_ongoing (R : World → Prop) :
    Safe L args src (render L (sessionEvents h groups)) fun w => Ongoing L args src h v B groups w ∧ R w :=
  fun w hw => ⟨sessionEvents h groups, [], by rw [hw.1, append_nil], by simp,
    .inr ⟨h, v, B, groups, rfl, hs, hw.2.1⟩⟩

/-- An event is appended that `R` allows to record. -/
theorem appendRecord_spec (hR : Mono ∅ R) {groups' : List (Chunk × List State)} {e : Event}
    (hevents : sessionEvents h groups' = sessionEvents h groups ++ [e])
    (hnext : ∀ w, Recorded L args h B groups w → R w → Recorded L args h B groups' w) :
    Triple (InSession L args src h v B groups R) (appendEvent L (sessionJournal L h groups) e)
      (Journaled L args src h v B groups' fun _ => True) (Stopped L args src) := by
  have hongoing : ∀ w, Ongoing L args src h v B groups w ∧ R w → Ongoing L args src h v B groups' w :=
    fun w hw => ⟨hw.1.version_le, hw.1.image, hnext w hw.1.recorded hw.2⟩
  refine conseq (appendEvent_spec (Ongoing.mono_empty.and hR) (fun w hw => .inr ⟨h, v, B, _, rfl, hs, hw.1⟩)
    fun w hw => .inr ⟨h, v, B, _, hevents.symm, hs, hongoing w hw⟩) (fun w hw => hw) fun j w hw => ?_
  rw [← hevents] at hw
  exact ⟨hw.1, hw.2.1, hongoing w hw.2.2, trivial⟩

/-- The last chunk goes on along a transition. -/
theorem appendAdvance_spec (hlast : p.getLast? = some s) {s' : State} (ht : (s, s') ∈ Replay.transitions) :
    Triple (InSession L args src h v B (groups ++ [(c, p)]) fun w => s' = .verified →
      HeldChunk L args h B groups.length w)
      (appendEvent L (sessionJournal L h (groups ++ [(c, p)])) (.chunk ⟨s', c⟩))
      (Journaled L args src h v B (groups ++ [(c, p ++ [s'])]) fun _ => True) (Stopped L args src) := by
  have hmono : Mono ∅ fun w => s' = .verified → HeldChunk L args h B groups.length w :=
    fun _ _ he hh hv => .mono (Set.notMem_empty _) he (hh hv)
  exact appendRecord_spec hs hmono (by simp [sessionEvents, pathEvents]) fun _ hr hh => hr.advance hlast ht hh

/-- Reconciling: whether the object is to be uploaded, and if not, it holds the chunk. -/
theorem needsUpload_spec (reconcile : Bool) : Triple (InSession L args src h v B (groups ++ [(c, p)]) fun _ => True)
      (needsUpload L reconcile (objectName L args h B groups.length) (chunkAt L args B groups.length))
      (fun needs_upload => InSession L args src h v B (groups ++ [(c, p)]) fun w => needs_upload = false →
        HeldChunk L args h B groups.length w) (Stopped L args src) := by
  have htrue : Triple (InSession L args src h v B (groups ++ [(c, p)]) fun _ => True)
      (pure true : Prog World Error Bool)
      (fun needs_upload => InSession L args src h v B (groups ++ [(c, p)]) fun w => needs_upload = false →
        HeldChunk L args h B groups.length w) (Stopped L args src) :=
    .pure fun w hw => ⟨hw.1, hw.2.1, fun hf => by cases hf⟩
  unfold needsUpload
  split_ifs
  · refine .catchIf ?_ htrue
    refine .bind (conseq_error (verifyLast_spec fun _ _ _ h => h) fun e w hw => ?_) fun _ => ?_
    · split_ifs
      · exact hw.1
      · exact ⟨safe_ongoing hs (fun _ => True) w hw.1, hw.2⟩
    · exact .pure fun w hw => ⟨hw.1, hw.2.1, fun _ => hw.2.2.2⟩
  · exact htrue

theorem lengthOf_pos (hk : offsetOf args k < B.length) : 0 < lengthOf args B k := by
  have := hs.chunk_size_pos
  simp only [lengthOf, lt_min_iff]
  omega

theorem offsetOf_nonneg (k : Nat) : 0 ≤ offsetOf args k :=
  Int.mul_nonneg (Int.natCast_nonneg k) hs.chunk_size_pos.le

section Unverified

variable (hp : p ∈ statePaths) (hlast : p.getLast? = some s) (hnv : s ≠ .verified)

include hp hlast hnv

/-- The last chunk, recorded as uploaded or already so, may be verified next. -/
theorem recordUploaded_spec : Triple (InSession L args src h v B (groups ++ [(c, p)]) fun _ => True)
      (recordUploaded L ⟨s, c⟩ (sessionJournal L h (groups ++ [(c, p)])))
      (Verifiable L args src h v B groups c fun _ => True) (Stopped L args src) := by
  unfold recordUploaded
  split_ifs with hprep
  · subst hprep
    refine conseq (appendAdvance_spec hs hlast (by simp [Replay.transitions]))
      (fun w hw => ⟨hw.1, hw.2.1, fun hf => by cases hf⟩) fun j w hw => ⟨p ++ [.uploaded], .uploaded, ?_, hw⟩
    exact ⟨by simp, by simp [Replay.transitions]⟩
  · exact .pure fun w hw => ⟨p, s, ⟨hlast, transition_verified hp hlast hnv⟩, rfl, hw⟩

section

variable {id : Identity} {path : String} (ho : 0 ≤ offset) (hl : 0 ≤ length)

include ho hl

/-- Uploading and verifying a chunk. -/
theorem transfer_spec : Triple (InSession L args src h v B (withChunk L args B groups p) fun _ => True)
      (transfer L src args id path (objectName L args h B groups.length) index offset length
        ⟨s, chunkAt L args B groups.length⟩ (sessionJournal L h (withChunk L args B groups p)))
      (Verifiable L args src h v B groups (chunkAt L args B groups.length) (HeldChunk L args h B groups.length))
        (Stopped L args src) := by
  have hmono : Mono {objectName L args h B groups.length} fun w =>
      Ongoing L args src h v B (withChunk L args B groups p) w ∧ True :=
    (Ongoing.mono_last hlast hnv).and fun _ _ _ h => h
  have hsafe : Safe L args src (render L (sessionEvents h (withChunk L args B groups p))) fun w =>
      Ongoing L args src h v B (withChunk L args B groups p) w ∧ True :=
    safe_ongoing hs fun _ => True
  refine .bind (ensureStaged_spec hmono.weaken hsafe (fun w hw => hw.1.version_le) ho hl _) fun _ => ?_
  refine .bind (uploadObject_spec hmono hsafe _) fun _ => ?_
  refine .bind (recordUploaded_spec hs hp hlast hnv) fun j => ?_
  refine exists_pre fun p' => exists_pre fun s' => fact_pre fun hp' => fact_pre fun hj => ?_
  refine .bind (conseq_error (verifyLast_spec fun _ _ _ h => h) fun e w hw => ?_) fun _ => ?_
  · exact ⟨safe_ongoing hs (fun _ => True) w hw.1, hw.2⟩
  · exact .pure fun w hw => ⟨p', s', hp', hj, hw.1, hw.2.1, hw.2.2.2⟩

/-- **Settling a chunk**: it is verified, and recorded so. -/
theorem settle_spec (reconcile : Bool) : Triple (InSession L args src h v B (withChunk L args B groups p) fun _ => True)
      (settle L src args h id path index offset length reconcile ⟨s, chunkAt L args B groups.length⟩
        (sessionJournal L h (withChunk L args B groups p))) (fun j w => ∃ p', p'.getLast? = some .verified ∧
        Journaled L args src h v B (withChunk L args B groups p') (fun _ => True) j w)
      (Stopped L args src) := by
  refine .bind (needsUpload_spec hs reconcile) fun needs_upload => ?_
  -- in either case the object holds the chunk and the path may go on to `verified`
  refine .bind (R := Verifiable L args src h v B groups (chunkAt L args B groups.length)
    (HeldChunk L args h B groups.length)) ?_ fun j => ?_
  · split_ifs with hneeds
    · exact conseq (transfer_spec hs hp hlast hnv ho hl) (fun w hw => ⟨hw.1, hw.2.1, trivial⟩) fun _ _ hw => hw
    · exact .pure fun w hw => ⟨p, s, ⟨hlast, transition_verified hp hlast hnv⟩, rfl, hw.1, hw.2.1,
        hw.2.2 (by simpa using hneeds)⟩
  · refine exists_pre fun p' => exists_pre fun s' => fact_pre fun ⟨hl', ht⟩ =>
      fact_pre fun hj => ?_
    subst hj
    refine conseq (appendAdvance_spec hs hl' ht) (fun w hw => ⟨hw.1, hw.2.1, fun _ => hw.2.2⟩)
      fun j w hw => ⟨p' ++ [.verified], by simp, hw⟩

end

/-- The end of a round for a chunk that is not verified yet. -/
theorem finishChunk_spec (hstart : start.length ≤ groups.length + 1)
    (hdone : ∀ i (hi : i < groups.length), groups[i].2.getLast? = some .verified)
    (hchunks : chunks = (List.range groups.length).map (chunkAt L args B))
    (hin : offsetOf args groups.length < B.length)
    (path : String) (reconcile : Bool) : Triple (InSession L args src h v B (withChunk L args B groups p) fun _ => True)
      (do
        let journal ← settle L src args h h.source path groups.length (offsetOf args groups.length)
          (lengthOf args B groups.length) reconcile ⟨s, chunkAt L args B groups.length⟩
          (sessionJournal L h (withChunk L args B groups p))
        unlinkStaged path
        pure (journal, chunks ++ [chunkAt L args B groups.length]))
      (LoopInv L args src h v start (groups.length + 1)) (Stopped L args src) := by
  refine .bind (settle_spec hs hp hlast hnv (offsetOf_nonneg hs _) (lengthOf_pos hs hin).le reconcile) fun j => ?_
  refine exists_pre fun p' => fact_pre fun hv => fact_pre fun hj => ?_
  refine Triple.bind (unlinkStaged_spec (Ongoing.mono_empty.and fun _ _ _ h => h) (safe_ongoing hs _) path) fun _ => ?_
  exact .pure fun w hw => ⟨_, _, progress_settled hstart hdone hchunks hv hj, hw⟩

end Unverified

/-- What was read is a chunk of an image that agrees so far, and of the recorded one if the source is kept. -/
theorem exists_image (hB : ImageOf args src v B)
    (hle : v ≤ w.version) (hin : offsetOf args k < B.length) (hlen : (data.length : Int) = lengthOf args B k)
    (hseen : Seen src v (offsetOf args k) data w) (hid : identity args (src w.version) = .ok h.source) :
    ∃ B', ImageOf args src v B' ∧ Agree args k B B' ∧ rawChunk args B' k = data := by
  by_cases hkept : SourceKept args src
  · refine ⟨B, hB, ⟨rfl, fun _ _ => rfl⟩, (eq_rawChunk (hseen B ?_) hlen).symm⟩
    rw [hB.kept hkept]
    exact hkept v w.version _ hle hs.source hid
  · obtain ⟨B', ha, hdata⟩ := exists_agree hs.chunk_size_pos hin hlen
    exact ⟨B', ⟨ha.length.trans hB.length, fun hk => absurd hk hkept⟩, ha, hdata⟩

section

variable (hlast : ∀ g ∈ groups.getLast?, g.2.getLast? = some .verified)

include hlast

/-- The next chunk is recorded as prepared. -/
theorem appendPrepare_spec : Triple (InSession L args src h v B groups (Prepared L args B groups.length))
      (appendEvent L (sessionJournal L h groups) (.chunk ⟨.prepared, chunkAt L args B groups.length⟩))
      (Journaled L args src h v B (withChunk L args B groups [.prepared]) fun _ => True) (Stopped L args src) :=
  appendRecord_spec hs .mono (by simp [sessionEvents, pathEvents]) fun _ hr hp => hr.prepare hlast hp

/-- **Preparing the next chunk.** -/
theorem chunkEvent_none_spec (hin : offsetOf args groups.length < B.length) (path : String) :
    Triple (InSession L args src h v B groups fun _ => True)
      (chunkEvent L src args h.source path none groups.length (offsetOf args groups.length)
        (lengthOf args B groups.length) (sessionJournal L h groups))
      (fun r w => ∃ B', (Agree args groups.length B B' ∧ r.2 = ⟨.prepared, chunkAt L args B' groups.length⟩ ∧
          r.1 = sessionJournal L h (withChunk L args B' groups [.prepared])) ∧
        InSession L args src h v B' (withChunk L args B' groups [.prepared]) (fun _ => True) w)
          (Stopped L args src) := by
  have hmono : Mono ∅ fun w => Ongoing L args src h v B groups w ∧ True := Ongoing.mono_empty.and fun _ _ _ h => h
  have hsafe : ∀ R : World → Prop, Safe L args src (render L (sessionEvents h groups)) fun w =>
      (Ongoing L args src h v B groups w ∧ True) ∧ R w :=
    fun R w hw => safe_ongoing hs (fun _ => True) w ⟨hw.1, hw.2.1⟩
  refine .bind (prepare_spec hmono (safe_ongoing hs _) (fun w hw => hw.1.version_le) (offsetOf_nonneg hs _)
    (lengthOf_pos hs hin).le) fun c => ?_
  refine exists_pre fun data => fact_pre fun hc => fact_pre fun hlen =>
    fact_pre fun hlim => ?_
  have hmono' : Mono ∅ fun w => (Ongoing L args src h v B groups w ∧ True) ∧
      Seen src v (offsetOf args groups.length) data w ∧ L.gzip data ∈ w.hashed :=
    hmono.and (Seen.mono.and fun _ _ he hd => he.hashed_subset hd)
  refine .bind (R := fun _ w => ∃ B', (Agree args groups.length B B' ∧
    rawChunk args B' groups.length = data) ∧
    InSession L args src h v B' groups (Prepared L args B' groups.length) w) ?_ fun _ => ?_
  · refine conseq (checkIdentity_spec hmono' (hsafe _) (by decide))
      (fun w hw => ⟨hw.1, hw.2.1.1, hw.2.1.2, hw.2.2⟩) fun _ w hw => ?_
    obtain ⟨⟨hfile, ⟨ho, -⟩, hseen, hhash⟩, hid⟩ := hw
    obtain ⟨B', hB', ha, rfl⟩ := exists_image hs ho.image ho.version_le hin hlen hseen hid
    refine ⟨B', ⟨ha, rfl⟩, hfile, ⟨ho.version_le, hB', ha.recorded ho.recorded⟩, ?_, ?_, hhash⟩
    · rw [ha.length]; exact hin
    · rw [ha.lengthOf]; exact hlim
  · refine exists_pre fun B' => fact_pre fun ⟨ha, hdata⟩ => ?_
    subst hdata
    rw [← ha.lengthOf] at hc
    subst hc
    exact .bind (appendPrepare_spec hs hlast) fun j => .pure fun w hw => ⟨B', ⟨ha, rfl, hw.1⟩, hw.2⟩

end

/-- A chunk recorded before: it is verified, or it is the last one. -/
theorem uploadChunk_recorded_spec (hp : Progress L args B h start k r groups) {g : Chunk × List State}
    (hg : start[k]? = some g) (hstates : states.lookup (k : Int) = g.2.getLast?.map fun s => ⟨s, g.1⟩) :
    Triple (InSession L args src h v B groups fun _ => True)
      (uploadChunk L src args h h.source states r ((k : Int), offsetOf args k))
      (LoopInv L args src h v start (k + 1)) (Stopped L args src) := by
  intro w hw
  obtain ⟨hstart, -⟩ := List.getElem?_eq_some_iff.1 hg
  obtain ⟨hk, hgk⟩ := List.getElem?_eq_some_iff.1 ((hp.rest k le_rfl).trans hg)
  have hsize : h.source.size = B.length := by rw [(identity_size hs.source).1, hw.2.1.image.length]
  have hrec := hw.2.1.recorded
  obtain ⟨hc, hprep⟩ := hrec.chunk k hk
  obtain ⟨hidx, hpath, hord⟩ := hrec.ordered k hk
  obtain ⟨c, p⟩ := g
  obtain ⟨j, chunks⟩ := r
  rw [hgk] at hc hpath hord
  obtain ⟨s, hlast⟩ := getLast?_of_statePaths hpath
  obtain rfl : j = _ := hp.journal
  subst hc
  rw [hlast, Option.map_some] at hstates
  have hlen : min args.chunk_size (h.source.size - offsetOf args k) = lengthOf args B k := by
    rw [hsize, lengthOf]
  have hvalid := validateChunk_chunkAt hprep
  have hin := hprep.inside
  clear hrec hprep
  revert w
  change Triple _ _ _ _
  simp only [uploadChunk, hstates, chunkEvent, hlen, hvalid]
  refine Triple.bind_eq (Triple.bind (R := fun _ => InSession L args src h v B groups fun _ => True)
    (Triple.ofExcept (fun _ _ _ hw => hw) fun _ _ he => by cases he) fun _ => Triple.pure fun w hw => ⟨rfl, hw⟩) ?_
  split_ifs with hv
  · subst hv
    refine Triple.bind_eq (Triple.pure fun w hw => ⟨rfl, hw⟩) ?_
    refine Triple.bind (unlinkStaged_spec (Ongoing.mono_empty.and fun _ _ _ h => h) (safe_ongoing hs _) _) fun _ => ?_
    exact Triple.pure fun w hw => ⟨B, groups, hp.skip hstart fun _ => by rw [hgk]; exact hlast, hw⟩
  · -- only the last recorded chunk may be unverified
    have hkl : k + 1 = groups.length := by
      by_contra hne
      rw [hlast] at hord
      exact hv (Option.some.inj (hord (by omega)))
    obtain ⟨init, g, rfl⟩ := eq_nil_or_concat' groups |>.resolve_left (by rintro rfl; simp at hk)
    obtain rfl : k = init.length := by simpa using hkl
    simp only [getElem_concat_length] at hgk
    subst hgk
    refine finishChunk_spec hs hpath hlast hv ?_ (fun i hi => ?_) hp.chunks hin _ _
    · have := hp.length
      simp at this
      omega
    · have := hp.done i (by simp; omega) hi
      rwa [getElem_append_left hi] at this

/-- A chunk not recorded before. -/
theorem uploadChunk_new_spec (hp : Progress L args B h start k r groups) (hk : start.length ≤ k)
    (hin : offsetOf args k < B.length) (hsize : h.source.size = B.length) (hstates : states.lookup (k : Int) = none) :
    Triple (InSession L args src h v B groups fun _ => True)
      (uploadChunk L src args h h.source states r ((k : Int), offsetOf args k))
      (LoopInv L args src h v start (k + 1)) (Stopped L args src) := by
  have hlen : min args.chunk_size (h.source.size - offsetOf args k) = lengthOf args B k := by
    rw [hsize, lengthOf]
  obtain rfl : k = groups.length := by rw [hp.length]; omega
  have hdone : ∀ i (hi : i < groups.length), groups[i].2.getLast? = some .verified := fun i hi => hp.done i hi hi
  have hlast : ∀ g ∈ groups.getLast?, g.2.getLast? = some .verified := by
    intro g hg
    rw [getLast?_eq_getElem?] at hg
    obtain ⟨hlt, rfl⟩ := List.getElem?_eq_some_iff.1 hg
    exact hdone _ hlt
  obtain ⟨j, chunks⟩ := r
  obtain rfl : j = _ := hp.journal
  simp only [uploadChunk, hstates, hlen]
  refine .bind (chunkEvent_none_spec hs hlast hin _) fun r => ?_
  obtain ⟨j, event⟩ := r
  refine exists_pre fun B' => fact_pre fun ⟨ha, he, hj⟩ => ?_
  subst he hj
  rw [if_neg (by simp), ← ha.lengthOf]
  refine finishChunk_spec hs (by simp [statePaths]) rfl (by simp) (by omega) hdone ?_ (by rw [ha.length]; exact hin) _ _
  rw [show chunks = _ from hp.chunks]
  exact map_congr_left fun i hi => (ha.chunkAt (mem_range.1 hi)).symm

/-- **One round of the chunk loop.** -/
theorem uploadChunk_spec
    (ht : Tracks start replayed) (hin : offsetOf args k < (src v).bytes.length) (r : Journal × List Chunk) :
    Triple (LoopInv L args src h v start k r)
      (uploadChunk L src args h h.source replayed.states r ((k : Int), offsetOf args k))
      (LoopInv L args src h v start (k + 1)) (Stopped L args src) := by
  rintro w ⟨B, groups, hp, hw⟩
  have hlook := ht.lookup k
  have hB := hw.2.1.image.length
  cases hg : start[k]? with
  | some g => exact uploadChunk_recorded_spec hs hp hg (by rw [hlook, hg]; rfl) w hw
  | none =>
    refine uploadChunk_new_spec hs hp (List.getElem?_eq_none_iff.1 hg) (by rw [hB]; exact hin) ?_
      (by rw [hlook, hg]; rfl) w hw
    rw [(identity_size hs.source).1, hB]

end Chunks

/-! ## An invocation -/

section Invocation

variable {u : Nat} {id : Identity}

theorem mono_version (X : Set String) (u : Nat) : Mono X fun w => u ≤ w.version :=
  fun _ _ he h => h.trans he.version_le

/-- A session starts with the source as it is now. -/
theorem ongoing_nil (hu : u ≤ w.version) : Ongoing L args src h u (src u).bytes [] w :=
  ⟨hu, ⟨rfl, fun _ => rfl⟩, fun _ hi => by simp at hi, fun _ hi => by simp at hi, fun _ hi => by simp at hi⟩

theorem ensureHeader_spec (hpos : 0 < args.chunk_size) (hid : identity args (src u) = .ok id) (es : List Event) :
    Triple (On (render L es) fun w => EventsHold L args src es w ∧ u ≤ w.version)
      (ensureHeader L args id (ofEvents L es)) (fun j w => ∃ es', j = ofEvents L es' ∧
        On (render L es') (fun w => EventsHold L args src es' w ∧ u ≤ w.version) w) (Stopped L args src) := by
  have hmono : Mono ∅ fun w => EventsHold L args src es w ∧ u ≤ w.version := EventsHold.mono.and (mono_version ∅ u)
  have hsafe : Safe L args src (render L es) fun w => EventsHold L args src es w ∧ u ≤ w.version :=
    fun w hw => ⟨es, [], by rw [hw.1, append_nil], by simp, hw.2.1⟩
  unfold ensureHeader
  split_ifs with hnil
  · obtain rfl : es = [] := hnil
    refine .bind (R := fun _ => On (render L []) fun w => EventsHold L args src [] w ∧ u ≤ w.version)
      (attempt_spec hmono hsafe fun m w hw => hw) fun session => ?_
    let h : Header := {
      version := VERSION, session := session, source := id, destination := args.destination,
      chunk_size := args.chunk_size, compression := "gzip-level-6-mtime-0" }
    have hs : SessionOf args src h u := ⟨rfl, session.2, hid, rfl, rfl, hpos⟩
    have hnew : ∀ w, u ≤ w.version → EventsHold L args src ([] ++ [.header h]) w :=
      fun w hw => .inr ⟨h, u, _, [], rfl, hs, ongoing_nil hw⟩
    refine conseq (appendEvent_spec hmono (fun w hw => hw.1) fun w hw => hnew w hw.2) (fun w hw => hw)
      fun j w hw => ⟨_, hw.1, hw.2.1, hnew w hw.2.2.2, hw.2.2.2⟩
  · exact .pure fun w hw => ⟨es, rfl, hw⟩

theorem checkHeader_ok
    (hok : checkHeader args id (ofEvents L es) = .ok h) : es.head? = some (.header h) ∧ h.source = id := by
  unfold checkHeader at hok
  split at hok
  · split_ifs at hok with hne
    cases hok
    exact ⟨‹_›, (Prod.mk.inj (Prod.mk.inj (not_not.1 hne)).2).1⟩
  · cases hok
  · cases hok
  · cases hok

theorem checkHeader_error (herr : checkHeader args id j = .error e) : e ∉ refusals := by
  unfold checkHeader at herr
  split at herr
  · split_ifs at herr
    cases herr; decide
  · cases herr; decide
  · cases herr; decide
  · cases herr; decide

/-- A session whose header names the identity the source has now may count from now. -/
theorem Ongoing.rebase {v : Nat} (hs : SessionOf args src h v) (hu : identity args (src u) = .ok h.source)
    (hle : u ≤ w.version) (ho : Ongoing L args src h v B groups w) :
    SessionOf args src h u ∧ Ongoing L args src h u B groups w := by
  refine ⟨⟨hs.version, hs.session, hu, hs.destination, hs.chunk_size, hs.chunk_size_pos⟩, hle, ⟨?_, fun hkept => ?_⟩,
    ho.recorded⟩
  · have hv := (identity_size hs.source).1
    rw [(identity_size hu).1] at hv
    rw [ho.image.length]
    omega
  · rw [ho.image.kept hkept]
    rcases Nat.le_total u v with huv | hvu
    · exact hkept u v _ huv hu hs.source v huv le_rfl
    · exact (hkept v u _ hvu hs.source hu u hvu le_rfl).symm

theorem checkHeader_spec (hid : identity args (src u) = .ok id) (es : List Event) :
    Triple (On (render L es) fun w => EventsHold L args src es w ∧ u ≤ w.version)
      (Prog.ofExcept (checkHeader args id (ofEvents L es)))
      (fun h w => ∃ groups, (es = sessionEvents h groups ∧ SessionOf args src h u ∧ h.source = id) ∧
        ∃ B, InSession L args src h u B groups (fun _ => True) w) (Stopped L args src) := by
  refine .ofExcept (fun h w hok hw => ?_) fun e w herr hw => ?_
  · obtain ⟨hhead, rfl⟩ := checkHeader_ok hok
    obtain ⟨hfile, rfl | ⟨h', v, B, groups, rfl, hs, ho⟩, hu⟩ := hw
    · cases hhead
    · obtain rfl : h' = h := by simpa [sessionEvents] using hhead
      obtain ⟨hs', ho'⟩ := ho.rebase hs hid hu
      exact ⟨groups, ⟨rfl, hs', rfl⟩, B, hfile, ho', trivial⟩
  · exact ⟨⟨es, [], by rw [hw.1, append_nil], by simp, hw.2.1⟩, checkHeader_error herr⟩

/-- The number of chunks of an image. -/
def chunkCount (args : Args) (B : Bytes) : Nat := (ranges B.length args.chunk_size).length

/-- The ranges, split at one of them. -/
theorem ranges_split (hpos : 0 < args.chunk_size) {pre post : List (Int × Int)} {x : Int × Int}
    (heq : ranges B.length args.chunk_size = pre ++ x :: post) :
    x = ((pre.length : Int), offsetOf args pre.length) ∧ offsetOf args pre.length < B.length := by
  have hget : (ranges B.length args.chunk_size)[pre.length]? = some x := by rw [heq]; simp
  rw [ranges, getElem?_map, Option.map_eq_some_iff] at hget
  obtain ⟨i, hi, rfl⟩ := hget
  obtain ⟨hlt, hi'⟩ := List.getElem?_eq_some_iff.1 hi
  rw [getElem_range] at hi'
  subst hi'
  refine ⟨rfl, ?_⟩
  rw [length_range] at hlt
  have hle : (pre.length : Int) + 1 ≤ (B.length + args.chunk_size - 1) / args.chunk_size := by omega
  rw [Int.le_ediv_iff_mul_le hpos, Int.add_mul] at hle
  simp only [offsetOf]
  omega

/-- **The chunk loop**: every chunk is verified. -/
theorem chunkLoop_spec (hs : SessionOf args src h u) (ht : Tracks start replayed) :
    Triple (fun w => ∃ B, InSession L args src h u B start (fun _ => True) w)
      ((ranges h.source.size args.chunk_size).foldlM (uploadChunk L src args h h.source replayed.states)
        (ofEvents L (sessionEvents h start), []))
      (LoopInv L args src h u start (chunkCount args (src u).bytes)) (Stopped L args src) := by
  rw [(identity_size hs.source).1]
  refine conseq (.foldlM (I := fun done r w => LoopInv L args src h u start done.length r w)
    (ranges (src u).bytes.length args.chunk_size) [] (ofEvents L (sessionEvents h start), [])
    fun pre x post r heq => ?_) (fun w ⟨B, hw⟩ => ⟨B, start, ?_, hw⟩) fun _ _ hw => hw
  · obtain ⟨rfl, hin⟩ := ranges_split hs.chunk_size_pos heq
    rw [length_append]
    exact uploadChunk_spec hs ht hin r
  · exact ⟨rfl, rfl, by simp, fun _ _ => rfl, fun i _ hi => by simp at hi⟩

/-- The chunks of the image are all that is recorded. -/
theorem Recorded.length_le
    (hpos : 0 < args.chunk_size) (hr : Recorded L args h B groups w) : groups.length ≤ chunkCount args B := by
  rcases Nat.eq_zero_or_pos groups.length with h0 | h0
  · omega
  · have := (hr.chunk (groups.length - 1) (by omega)).2.lt hpos
    simp only [chunkCount]
    omega

/-- The manifest of an image. -/
def manifestOf (L : Python) (args : Args) (h : Header) (B : Bytes) : Manifest :=
  ⟨h, (List.range (chunkCount args B)).map (chunkAt L args B)⟩

/-- All chunks of the image were prepared within the limit, and are held. -/
structure AllHeld (L : Python) (args : Args) (h : Header) (B : Bytes) (w : World) : Prop where
  prepared : ∀ k < chunkCount args B, Prepared L args B k w
  held : ∀ k < chunkCount args B, HeldChunk L args h B k w

/-- **All chunks are uploaded**: those of an image with the identity that the source has during this invocation. -/
theorem uploadChunks_spec (u₀ : Nat) : Triple (fun w => Durable L args src w ∧ u₀ ≤ w.version) (uploadChunks L src args)
      (fun m w => ∃ h u B, (u₀ ≤ u ∧ SessionOf args src h u ∧ ImageOf args src u B ∧ m = manifestOf L args h B) ∧
        ∃ groups, InSession L args src h u B groups (AllHeld L args h B) w) (Stopped L args src) := by
  unfold uploadChunks
  split_ifs with hargs hstage
  · exact .throw fun w hw => ⟨hw.1, by decide⟩
  · exact .throw fun w hw => ⟨hw.1, by decide⟩
  have hpos : 0 < args.chunk_size := by omega
  refine .bind (openJournal_spec (mono_version ∅ u₀)) fun j => exists_pre fun es =>
    fact_pre fun hj => ?_
  subst hj
  -- the identity is taken at a version `u` of the source that is not before the start
  refine .bind (R := fun id w => ∃ u, (u₀ ≤ u ∧ identity args (src u) = .ok id) ∧
    On (render L es) (fun w => EventsHold L args src es w ∧ u ≤ w.version) w) ?_ fun id => ?_
  · refine conseq (currentIdentity_spec (EventsHold.mono.and (mono_version ∅ u₀))
      fun w hw => ⟨es, [], by rw [hw.1, append_nil], by simp, hw.2.1⟩) (fun w hw => hw) fun id w hw => ?_
    exact ⟨w.version, ⟨hw.1.2.2, hw.2⟩, hw.1.1, hw.1.2.1, le_rfl⟩
  refine exists_pre fun u => fact_pre fun ⟨hu, hid⟩ => ?_
  refine .bind (ensureHeader_spec hpos hid es) fun j => exists_pre fun es' =>
    fact_pre fun hj => ?_
  subst hj
  refine .bind (checkHeader_spec hid es') fun h => exists_pre fun start =>
    fact_pre fun ⟨hes, hs, hsrc⟩ => ?_
  subst hes hsrc
  refine .bind (R := fun replayed w => Tracks start replayed ∧
    ∃ B, InSession L args src h u B start (fun _ => True) w) ?_ fun replayed => fact_pre fun ht => ?_
  · rintro w ⟨B, hw⟩
    obtain ⟨replayed, hr, ht⟩ := replay_of_groups hw.2.1.recorded.ordered
    have hr' : replay (ofEvents L (sessionEvents h start)).events.tail = .ok replayed := hr
    rw [hr']
    exact ⟨ht, B, hw⟩
  refine .bind (chunkLoop_spec hs ht) fun r => exists_pre fun B => exists_pre fun groups =>
    fact_pre fun hp => ?_
  obtain ⟨j, chunks⟩ := r
  have hchunks : chunks = _ := hp.chunks
  subst hchunks
  have hcount : ∀ w, InSession L args src h u B groups (fun _ => True) w →
      chunkCount args (src u).bytes = chunkCount args B ∧ groups.length = chunkCount args B := fun w hw => by
    have heq : chunkCount args (src u).bytes = chunkCount args B := by simp only [chunkCount, hw.2.1.image.length]
    exact ⟨heq, le_antisymm (hw.2.1.recorded.length_le hpos) (by rw [hp.length]; omega)⟩
  dsimp only
  split_ifs with hbeyond
  · refine .throw fun w hw => ?_
    have := hcount w hw
    have := hp.length
    rw [ht.size, length_map, length_range] at hbeyond
    omega
  · refine Triple.bind (checkIdentity_spec (Ongoing.mono_empty.and fun _ _ _ h => h) (safe_ongoing hs _) (by decide))
      fun _ => .pure fun w hw => ?_
    obtain ⟨heq, hl⟩ := hcount w hw.1
    have hrec := hw.1.2.1.recorded
    refine ⟨h, u, B, ⟨hu, hs, hw.1.2.1.image, by rw [manifestOf, heq]⟩, groups, hw.1.1, hw.1.2.1, ?_⟩
    exact ⟨fun k hk => (hrec.chunk k (by omega)).2,
      fun k hk => hrec.held k (by omega) (hp.done k (by omega) (by omega))⟩

/-- What a completed invocation leaves: the manifest of an image, and all its chunks. -/
structure Published (L : Python) (args : Args) (h : Header) (B : Bytes) (w : World) : Prop where
  small : (L.encodeManifest (manifestOf L args h B)).length ≤ 64 * BLOCK
  manifest : Held L (remotePath args.destination (manifestName h)) (L.encodeManifest (manifestOf L args h B)) w
  chunks : AllHeld L args h B w

/-- **An invocation.** It completes with a published manifest of the image, or stops with what survives. -/
theorem upload_spec (u₀ : Nat) : Triple (fun w => Durable L args src w ∧ u₀ ≤ w.version) (upload L src args)
      (fun path w => ∃ h u B, (u₀ ≤ u ∧ SessionOf args src h u ∧ ImageOf args src u B ∧
          path = remotePath args.destination (manifestName h)) ∧
        u ≤ w.version ∧ Durable L args src w ∧ Published L args h B w) (Stopped L args src) := by
  refine .bind (uploadChunks_spec u₀) fun m => ?_
  refine exists_pre fun h => exists_pre fun u => exists_pre fun B =>
    fact_pre fun ⟨hu, hs, hB, hm⟩ => exists_pre fun groups => ?_
  subst hm
  have hother : ∀ k, objectName L args h B k ∉ ({remotePath args.destination (manifestName h)} : Set String) :=
    fun k he => manifestName_ne_chunkName h _ (remotePath_injective he).symm
  have hmono : Mono {remotePath args.destination (manifestName h)} fun w =>
      Ongoing L args src h u B groups w ∧ AllHeld L args h B w :=
    (Ongoing.mono fun k _ _ => hother k).and fun _ _ he ha =>
      ⟨fun k hk => .mono he (ha.prepared k hk), fun k hk => .mono (hother k) he (ha.held k hk)⟩
  have hsafe : Safe L args src (render L (sessionEvents h groups)) fun w =>
      Ongoing L args src h u B groups w ∧ AllHeld L args h B w := safe_ongoing hs _
  unfold publish
  dsimp only
  split_ifs with hsmall
  · exact .throw fun w hw => ⟨hsafe w hw, by decide⟩
  refine .bind (uploadObject_spec hmono hsafe _) fun _ => ?_
  have hmono' : Mono ∅ fun w => (Ongoing L args src h u B groups w ∧ AllHeld L args h B w) ∧
      L.encodeManifest (manifestOf L args h B) ∈ w.hashed :=
    hmono.weaken.and fun _ _ he hd => he.hashed_subset hd
  refine Triple.bind (R := fun _ => On (render L (sessionEvents h groups)) fun w =>
    (Ongoing L args src h u B groups w ∧ AllHeld L args h B w) ∧ L.encodeManifest (manifestOf L args h B) ∈ w.hashed)
    (attempt_spec hmono.weaken hsafe fun m w hw => ?_) fun _ => ?_
  · exact ⟨hw.1, hmono.weaken (hash_extends w _) hw.2, by simp [World.hash]⟩
  refine Triple.bind (conseq_error (verifyObject_spec hmono' fun w hw => hw.2) fun e w hw => ?_) fun _ => ?_
  · exact ⟨hsafe w ⟨hw.1.1, hw.1.2.1⟩, hw.2⟩
  · exact Triple.pure fun w hw => ⟨h, u, B, ⟨hu, hs, hB, rfl⟩, hw.1.2.1.1.version_le,
      hsafe w ⟨hw.1.1, hw.1.2.1⟩, by omega, hw.2, hw.1.2.1.2⟩

end Invocation
end ZClone.Recover
