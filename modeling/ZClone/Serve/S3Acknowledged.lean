import ZClone.Serve.S3Complete

/-!
# Completing acknowledged parts

A client sends the parts `1, …, n`, some of them more than once but always with the same contents, and completes the
upload when it has an acknowledgement for each. Nothing fails but the bodies of requests, and nobody aborts.

- `Tidy` is what the uploads keep among themselves: a part on record has been streamed, is buffered, or is being
  written.
- `acknowledged_completes` says that the completion succeeds if no request is writing when it comes;
  `acknowledged_not_completed` is a repeated part that is acknowledged while its first copy is still being written.
-/

namespace ZClone.S3.Multipart

open List

variable {η : Type} {c : Config η} {n : Nat} {f : Nat → Body} {pc : CompletePc} {choice : Choice} {s s' : State η}
  {sh : Shared η} {r : Shared η × CompletePc}

/-- What may happen. Of the failures only that of a request body. -/
def Allowed (n : Nat) (f : Nat → Body) (s : State η) : Action η → Prop
  | .request (.upload number body) => (1 ≤ number ∧ number ≤ n) ∧ body = f number
  | .request _ => False
  | .run i .fail => ∃ number body, s.threads[i]? = some (.upload number body .receive)
  | .run _ _ => True

def Clean [DecidableEq η] (c : Config η) (n : Nat) (f : Nat → Body) (s s' : State η) : Prop :=
  ∃ a, Allowed n f s a ∧ step c s a = some s'

/-- The record agrees with the plan of the client, and no part on record is lost. -/
structure Tidy (c : Config η) (n : Nat) (f : Nat → Body) (sh : Shared η) : Prop where
  parts : ∀ k v, sh.parts.lookup k = some v → (1 ≤ k ∧ k ≤ n) ∧ v = (c.md5 (f k), (f k).length)
  placed : ∀ k, (sh.parts.lookup k).isSome = true →
    k < sh.nextPart ∨ (sh.buf.lookup k).isSome = true ∨ sh.pumping = true ∧ k = sh.nextPart
  settled : sh.pumping = false → sh.buf.lookup sh.nextPart = none

/-- The part of the request is on record. -/
def UploadPc.recorded : UploadPc → Bool
  | .writing _ _ | .returned true => true
  | _ => false

/-- What a step of an `UploadPart` for the part `number` leads to. -/
def Leads (c : Config η) (n : Nat) (f : Nat → Body) (sh : Shared η) (number : Nat) (r : Shared η × UploadPc) : Prop :=
  Tidy c n f r.1 ∧ r.1.registered = sh.registered ∧
    (∀ k, (sh.parts.lookup k).isSome = true → (r.1.parts.lookup k).isSome = true) ∧
    (r.2.recorded = true → (r.1.parts.lookup number).isSome = true)

section Uploads

variable {sh : Shared η} {number : Nat}

theorem pump_leads (sh : Shared η)
    (hparts : ∀ k v, sh.parts.lookup k = some v → (1 ≤ k ∧ k ≤ n) ∧ v = (c.md5 (f k), (f k).length))
    (hplaced : ∀ k, (sh.parts.lookup k).isSome = true → k < sh.nextPart ∨ (sh.buf.lookup k).isSome = true)
    (hpumping : sh.pumping = true) (hopen : sh.closed = false) (hnumber : (sh.parts.lookup number).isSome = true) :
    Leads c n f sh number (pump sh) := by
  rw [pump, if_neg (by simp [hopen])]
  cases hbuf : sh.buf.lookup sh.nextPart with
  | none => exact ⟨⟨hparts, fun k hk => (hplaced k hk).imp_right .inl, fun _ => hbuf⟩, rfl, fun _ hk => hk,
      fun _ => hnumber⟩
  | some part =>
    refine ⟨⟨hparts, fun k hk => ?_, fun hidle => ?_⟩, rfl, fun _ hk => hk, fun _ => hnumber⟩
    · dsimp only
      by_cases hk' : k = sh.nextPart
      · exact .inr (.inr ⟨hpumping, hk'⟩)
      · rw [AList.lookup_erase_ne hk']
        exact (hplaced k hk).imp_right .inl
    · dsimp only at hidle
      rw [hpumping] at hidle
      cases hidle

theorem Tidy.record (h : Tidy c n f sh) (hopen : sh.closed = false) (hnumber : 1 ≤ number ∧ number ≤ n) :
    Leads c n f sh number (record c sh number (f number)) := by
  obtain ⟨parts, hinsert⟩ : ∃ parts, sh.parts.insert number (c.md5 (f number), (f number).length) = parts := ⟨_, rfl⟩
  have hself : parts.lookup number = some (c.md5 (f number), (f number).length) := hinsert ▸ AList.lookup_insert _
  have hother : ∀ {k}, k ≠ number → parts.lookup k = sh.parts.lookup k := fun hk => hinsert ▸ AList.lookup_insert_ne hk
  have hparts : ∀ k v, parts.lookup k = some v → (1 ≤ k ∧ k ≤ n) ∧ v = (c.md5 (f k), (f k).length) := by
    intro k v hv
    by_cases hk : k = number
    · subst hk
      exact ⟨hnumber, Option.some.inj (hv.symm.trans hself)⟩
    · exact h.parts k v (hother hk ▸ hv)
  have hplaced : ∀ k, (parts.lookup k).isSome = true →
      k < sh.nextPart ∨ ((sh.buf.insert number (f number)).lookup k).isSome = true ∨ sh.pumping = true ∧
        k = sh.nextPart := by
    intro k hk
    by_cases hk' : k = number
    · subst hk'
      rw [AList.lookup_insert]
      exact .inr (.inl rfl)
    · rw [AList.lookup_insert_ne hk']
      exact h.placed k (hother hk' ▸ hk)
  have hself : (parts.lookup number).isSome = true := by
    rw [hself]
    rfl
  have hkept : ∀ k, (sh.parts.lookup k).isSome = true → (parts.lookup k).isSome = true := by
    intro k hk
    by_cases hk' : k = number
    · exact hk' ▸ hself
    · rwa [hother hk']
  rw [Multipart.record]
  rw [hinsert]
  cases hpumping : sh.pumping with
  | true =>
    rw [if_pos rfl]
    rw [hpumping] at hplaced
    exact ⟨⟨hparts, hplaced, fun h => Bool.noConfusion h⟩, rfl, hkept, fun _ => hself⟩
  | false =>
    rw [if_neg (by simp)]
    obtain ⟨htidy, hregistered, hkept', hself'⟩ :=
      pump_leads { sh with parts, buf := sh.buf.insert number (f number), pumping := true }
      hparts (fun k hk => (hplaced k hk).imp_right fun h => h.resolve_right fun h => by rw [hpumping] at h; cases h.1)
      rfl hopen hself
    exact ⟨htidy, hregistered, fun k hk => hkept' k (hkept k hk), hself'⟩

theorem Tidy.afterWrite (h : Tidy c n f sh) (hopen : sh.closed = false) (hpumping : sh.pumping = true)
    (hnumber : (sh.parts.lookup number).isSome = true) (part : Body) : Leads c n f sh number (afterWrite sh part) := by
  refine pump_leads { sh with nextPart := sh.nextPart + 1, buffered := sh.buffered - part.length } h.parts
    (fun k hk => ?_) hpumping hopen hnumber
  rcases h.placed k hk with hlt | hbuf | ⟨-, rfl⟩
  · exact .inl (Nat.lt_succ_of_lt hlt)
  · exact .inr hbuf
  · exact .inl (Nat.lt_succ_self _)

theorem Tidy.streamPart [DecidableEq η] (h : Tidy c n f sh) (hopen : sh.closed = false)
    (hnumber : 1 ≤ number ∧ number ≤ n) :
    Leads c n f sh number (streamPart c sh number (f number)) := by
  rw [Multipart.streamPart, if_neg (by simp [hopen])]
  cases hparts : sh.parts.lookup number with
  | none => exact h.record hopen hnumber
  | some old =>
    cases sh.buf.lookup number with
    | none => exact ⟨{ h with }, rfl, fun _ hk => hk, fun _ => by rw [hparts]; rfl⟩
    | some _ =>
      have h' : Tidy c n f { sh with buffered := sh.buffered - old.2 } := { h with }
      exact h'.record hopen hnumber

theorem Tidy.stepUpload [DecidableEq η] (h : Tidy c n f sh) (hopen : sh.closed = false)
    (hnumber : 1 ≤ number ∧ number ≤ n)
    {pc : UploadPc} {r : Shared η × UploadPc} (hrecorded : pc.recorded = true → (sh.parts.lookup number).isSome = true)
    (hwriting : ∀ part written, pc = .writing part written → sh.pumping = true ∧ choice ≠ .fail)
    (hstep : stepUpload c sh number (f number) choice pc = some r) : Leads c n f sh number r := by
  -- A step that leaves the record, the buffer and the sink alone.
  have hidle : ∀ buffered pc', (pc'.recorded = true → (sh.parts.lookup number).isSome = true) →
      Leads c n f sh number ({ sh with buffered }, pc') :=
    fun _ _ hpc' => ⟨{ h with }, rfl, fun _ hk => hk, hpc'⟩
  cases pc with
  | load =>
    cases hstep
    refine hidle sh.buffered _ fun hpc => ?_
    split_ifs at hpc <;> cases hpc
  | wait =>
    rw [Multipart.stepUpload, if_neg (by simp [hopen])] at hstep
    split_ifs at hstep
    cases hstep
    exact hidle _ _ fun h => Bool.noConfusion h
  | receive =>
    cases choice with
    | go =>
      cases hstep
      exact h.streamPart hopen hnumber
    | fail =>
      cases hstep
      exact hidle _ _ fun h => Bool.noConfusion h
    | write count => cases hstep
  | writing part written =>
    obtain ⟨hpumping, hchoice⟩ := hwriting part written rfl
    cases choice with
    | write count =>
      rw [Multipart.stepUpload] at hstep
      split_ifs at hstep
      cases hstep
      exact ⟨{ h with }, rfl, fun _ hk => hk, fun _ => hrecorded rfl⟩
    | fail => exact absurd rfl hchoice
    | go =>
      rw [Multipart.stepUpload] at hstep
      split_ifs at hstep
      cases hstep
      exact h.afterWrite hopen hpumping (hrecorded rfl) part
  | returned ok => cases hstep

end Uploads

/-! ## Before the completion -/

/-- The requests so far are those of the client, and the parts of those acknowledged are on record. -/
structure Uploading (c : Config η) (n : Nat) (f : Nat → Body) (s : State η) : Prop where
  opened : Opened c s
  registered : s.shared.registered = true
  tidy : Tidy c n f s.shared
  calls : ∀ t ∈ s.threads, ∃ number pc, t = .upload number (f number) pc ∧ (1 ≤ number ∧ number ≤ n) ∧
    (pc.recorded = true → (s.shared.parts.lookup number).isSome = true)

theorem uploading_start : Uploading c n f (start η) where
  opened := opened_start
  registered := rfl
  tidy := ⟨by nofun, by nofun, fun _ => rfl⟩
  calls := by nofun

section Before

variable [DecidableEq η]

theorem Uploading.step (h : Uploading c n f s) (hstep : Clean c n f s s') : Uploading c n f s' := by
  obtain ⟨sh, threads⟩ := s
  obtain ⟨a, hallowed, hstep⟩ := hstep
  cases a with
  | request r =>
    cases r with
    | upload number body =>
      obtain ⟨hnumber, rfl⟩ := hallowed
      cases hstep
      exact
        { opened := h.opened.request (.upload number (f number))
          registered := h.registered
          tidy := h.tidy
          calls := forall_mem_concat h.calls ⟨number, .load, rfl, hnumber, nofun⟩ }
    | complete list | abort reaper => cases hallowed
  | run i choice =>
    obtain ⟨t, _, ht, hthread, rfl⟩ := step_run hstep
    obtain ⟨number, pc, rfl, hnumber, hrecorded⟩ := h.calls t (mem_of_getElem? ht)
    obtain ⟨r, hupload, rfl⟩ := Option.map_eq_some_iff.mp hthread
    have hwriting : ∀ part written, pc = .writing part written → sh.pumping = true ∧ choice ≠ .fail := by
      rintro part written rfl
      obtain ⟨-, -, hpumping, -⟩ := h.opened.streams.writer ht rfl
      refine ⟨hpumping, ?_⟩
      rintro rfl
      obtain ⟨_, _, hreceive⟩ := hallowed
      cases ht.symm.trans hreceive
    obtain ⟨htidy, hregistered, hkept, hrecorded'⟩ :=
      h.tidy.stepUpload h.opened.closed hnumber hrecorded hwriting hupload
    exact
      { opened := h.opened.upload ht hupload
        registered := hregistered.trans h.registered
        tidy := htidy
        calls := by
          refine forall_mem_set (fun t ht => ?_) ⟨number, _, rfl, hnumber, hrecorded'⟩
          obtain ⟨number', pc', rfl, hnumber', hpc'⟩ := h.calls t ht
          exact ⟨number', pc', rfl, hnumber', fun h' => hkept _ (hpc' h')⟩ }

end Before

/-- Everything the client has sent is on record and streamed. -/
structure Done (c : Config η) (n : Nat) (f : Nat → Body) (sh : Shared η) : Prop where
  recorded : ∀ k, 1 ≤ k ∧ k ≤ n → sh.parts.lookup k = some (c.md5 (f k), (f k).length)
  keys : sh.parts.keys.length = n
  next : sh.nextPart = n + 1
  buf : sh.buf.keys = []

theorem Done.buf_lookup (h : Done c n f sh) (k : Nat) : sh.buf.lookup k = none := by
  rw [AList.lookup_eq_none, AList.mem_keys, h.buf]
  exact not_mem_nil

/-- When every part is acknowledged and no request is writing, nothing is left to stream. -/
theorem Uploading.done (h : Uploading c n f s) (hquiet : ∀ t ∈ s.threads, t.current = none)
    (hacked : ∀ k, 1 ≤ k ∧ k ≤ n → ∃ body, .upload k body (.returned true) ∈ s.threads) : Done c n f s.shared := by
  obtain ⟨bodies, hfed, hidle | hpumped⟩ := h.opened.streams
  · have hrecorded : ∀ k, 1 ≤ k ∧ k ≤ n → s.shared.parts.lookup k = some (c.md5 (f k), (f k).length) := by
      intro k hk
      obtain ⟨body, hmem⟩ := hacked k hk
      obtain ⟨number, pc, heq, -, hpc⟩ := h.calls _ hmem
      cases heq
      obtain ⟨v, hv⟩ := Option.isSome_iff_exists.mp (hpc rfl)
      rw [hv, (h.tidy.parts _ v hv).2]
    have hkeys : s.shared.parts.keys.Perm (range' 1 n) := by
      refine (perm_ext_iff_of_nodup s.shared.parts.keys_nodup nodup_range').mpr fun k => ?_
      rw [← AList.mem_keys, ← AList.lookup_isSome, mem_range'_1]
      constructor
      · intro hk
        obtain ⟨v, hv⟩ := Option.isSome_iff_exists.mp hk
        have hrange := (h.tidy.parts k v hv).1
        omega
      · intro hk
        rw [hrecorded k (by omega)]
        rfl
    have hnext : s.shared.nextPart = n + 1 := by
      have hlength := hfed.next
      rcases Nat.lt_trichotomy s.shared.nextPart (n + 1) with hlt | heq | hgt
      · -- The next part would be on record, but there is no place where it could be.
        have hpart := hrecorded s.shared.nextPart (by omega)
        rcases h.tidy.placed s.shared.nextPart (by rw [hpart]; rfl) with hlt | hbuf | ⟨hpumping, -⟩
        · exact absurd hlt (Nat.lt_irrefl _)
        · rw [h.tidy.settled hidle.1] at hbuf
          cases hbuf
        · rw [hidle.1] at hpumping
          cases hpumping
      · exact heq
      · have hpart := (hfed.recorded n _ (getElem?_eq_getElem (by omega))).1
        have hrange := (h.tidy.parts _ _ hpart).1
        omega
    refine ⟨hrecorded, by rw [hkeys.length_eq, length_range'], hnext, ?_⟩
    refine eq_nil_iff_forall_not_mem.mpr fun k hk => ?_
    rw [← AList.mem_keys, ← AList.lookup_isSome] at hk
    obtain ⟨b, hb⟩ := Option.isSome_iff_exists.mp hk
    have hrange := (h.tidy.parts k _ (hfed.buffered k b hb)).1
    have hlength := hfed.next
    have hstreamed := (hfed.recorded (k - 1) _ (getElem?_eq_getElem (by omega))).2
    rw [Nat.sub_add_cancel hrange.1, hb] at hstreamed
    cases hstreamed
  · obtain ⟨-, i, t, part, written, ht, hcurrent, -⟩ := hpumped
    rw [hquiet t (mem_of_getElem? ht)] at hcurrent
    cases hcurrent

/-! ## The completion -/

/-- The parts of the client, with their ETags. -/
def listed (c : Config η) (n : Nat) (f : Nat → Body) : List (Nat × η) := (List.range' 1 n).map fun k => (k, c.md5 (f k))

/-- The steps that a completion has to make. -/
def CompletePc.remaining : CompletePc → Nat
  | .load => 5
  | .validate => 4
  | .close => 3
  | .sinkClose => 2
  | .rename => 1
  | _ => 0

/-- What the next step of the completion needs. -/
def Ready (c : Config η) (sh : Shared η) : CompletePc → Prop
  | .load => sh.registered = true ∧ sh.closed = false ∧ sh.pending = false
  | .validate | .close => sh.closed = false ∧ sh.pending = false
  | .sinkClose => sh.pending = false
  | .rename => c.direct = true ∨ sh.temp.isSome = true
  | .returned true => True
  | _ => False

theorem Ready.buffered (h : Ready c sh pc) (buffered : Int) : Ready c { sh with buffered } pc := by
  cases pc <;> exact h

theorem Ready.eq_returned (h : Ready c sh pc) (hpc : pc.remaining = 0) : pc = .returned true := by
  cases pc with
  | load | validate | close | sinkClose | rename => cases hpc
  | returned ok =>
    cases ok with
    | true => rfl
    | false => cases h
  | applyPendingRename | abort | sinkAbort | discard => cases h

/-- The completion is the request `i`; the others are those of the client, and none is writing. -/
structure Completing (c : Config η) (n : Nat) (f : Nat → Body) (i : Nat) (pc : CompletePc) (s : State η) : Prop where
  done : Done c n f s.shared
  ready : Ready c s.shared pc
  here : s.threads[i]? = some (.complete (listed c n f) pc)
  others : ∀ (j : Nat) (t : Thread η), s.threads[j]? = some t → j ≠ i →
    ∃ number upc, t = .upload number (f number) upc ∧ (1 ≤ number ∧ number ≤ n) ∧ t.current = none

section Completion

variable [DecidableEq η] {sh : Shared η} {i : Nat} {list : List (Nat × η)}

theorem Done.validate (h : Done c n f sh) : validate sh (listed c n f) = true := by
  refine validate_iff.mpr ⟨?_, ?_, ?_⟩
  · rw [listed, map_map, show (Prod.fst ∘ fun k => (k, c.md5 (f k))) = id from rfl, map_id]
    exact isChain_iff_pairwise.mpr pairwise_lt_range'
  · rw [listed, length_map, length_range', h.keys]
  · intro p hp
    obtain ⟨k, hk, rfl⟩ := mem_map.mp hp
    rw [mem_range'_1] at hk
    exact ⟨_, h.recorded k (by omega)⟩

omit [DecidableEq η] in
theorem Done.rename (h : Done c n f sh) (hready : Ready c sh .rename) :
    ∃ sh', renameTemp c sh = some sh' ∧ Done c n f sh' := by
  rw [renameTemp]
  by_cases hdirect : c.direct = true
  · rw [if_pos hdirect]
    exact ⟨_, rfl, { h with }⟩
  · obtain ⟨body, hbody⟩ := Option.isSome_iff_exists.mp (hready.resolve_left hdirect)
    rw [if_neg hdirect, hbody]
    exact ⟨_, rfl, { h with }⟩

/-- The completion can go on, and is closer to its end then. -/
theorem Done.stepComplete (h : Done c n f sh) (hready : Ready c sh pc) (hpc : pc.remaining ≠ 0) :
    ∃ r, stepComplete c sh (listed c n f) .go pc = some r ∧ Done c n f r.1 ∧ Ready c r.1 r.2 ∧
      r.2.remaining + 1 = pc.remaining := by
  cases pc with
  | load =>
    rw [Multipart.stepComplete, if_pos hready.1]
    exact ⟨_, rfl, h, hready.2, rfl⟩
  | validate =>
    rw [Multipart.stepComplete, if_pos h.validate]
    exact ⟨_, rfl, h, hready, rfl⟩
  | close =>
    rw [Multipart.stepComplete, if_neg (by simp [hready.1]), if_neg (by simp [h.buf, h.next, h.keys])]
    exact ⟨_, rfl, { h with }, hready.2, rfl⟩
  | sinkClose =>
    have hpending : sh.pending = false := hready
    rw [Multipart.stepComplete, hpending, Multipart.sinkClose]
    by_cases hdirect : c.direct = true
    · rw [if_pos hdirect]
      exact ⟨_, rfl, { h with }, .inl hdirect, rfl⟩
    · rw [if_neg hdirect]
      exact ⟨_, rfl, { h with }, .inr rfl, rfl⟩
  | rename =>
    obtain ⟨sh', hrename, hdone⟩ := h.rename hready
    rw [Multipart.stepComplete, hrename]
    exact ⟨_, rfl, hdone, trivial, rfl⟩
  | returned ok => exact absurd rfl hpc
  | applyPendingRename | abort | sinkAbort | discard => cases hready

theorem stepComplete_go (hready : Ready c sh pc)
    (hchoice : choice ≠ .fail) (hstep : stepComplete c sh list choice pc = some r) :
    stepComplete c sh list .go pc = some r := by
  cases choice with
  | go => exact hstep
  | fail => exact absurd rfl hchoice
  | write count =>
    cases pc with
    | load | validate | close => exact hstep
    | sinkClose | rename | returned ok => cases hstep
    | applyPendingRename | abort | sinkAbort | discard => cases hready

theorem step_complete (ht : s.threads[i]? = some (.complete list pc))
    (hstep : Multipart.stepComplete c s.shared list choice pc = some r) :
    step c s (.run i choice) = some ⟨r.1, s.threads.set i (.complete list r.2)⟩ := by
  rw [step, ht]
  dsimp only
  rw [stepThread, hstep]
  rfl

theorem Completing.next (h : Completing c n f i pc s) (hpc : pc.remaining ≠ 0) :
    ∃ pc' s', step c s (.run i .go) = some s' ∧ Completing c n f i pc' s' ∧ pc'.remaining + 1 = pc.remaining := by
  obtain ⟨r, hcomplete, hdone, hready, hremaining⟩ := h.done.stepComplete h.ready hpc
  refine ⟨r.2, ⟨r.1, s.threads.set i (.complete (listed c n f) r.2)⟩, step_complete h.here hcomplete,
    ⟨hdone, hready, ?_, forall_getElem?_set h.others fun hne => absurd rfl hne⟩, hremaining⟩
  exact getElem?_set_self (List.getElem?_eq_some_iff.mp h.here).1

/-- Whatever happens, the completion is never turned away. -/
theorem Completing.step (h : Completing c n f i pc s) (hstep : Clean c n f s s') :
    ∃ pc', Completing c n f i pc' s' := by
  obtain ⟨a, hallowed, hstep⟩ := hstep
  obtain ⟨hi, -⟩ := List.getElem?_eq_some_iff.mp h.here
  cases a with
  | request r =>
    cases r with
    | upload number body =>
      obtain ⟨hnumber, rfl⟩ := hallowed
      cases hstep
      exact ⟨pc, h.done, h.ready, by rw [getElem?_append_left hi, h.here],
        forall_getElem?_concat h.others fun _ => ⟨number, .load, rfl, hnumber, rfl⟩⟩
    | complete list | abort reaper => cases hallowed
  | run j choice =>
    by_cases hji : j = i
    · subst hji
      have hchoice : choice ≠ .fail := by
        rintro rfl
        obtain ⟨_, _, hupload⟩ := hallowed
        cases h.here.symm.trans hupload
      obtain ⟨t, _, ht, hthread, rfl⟩ := step_run hstep
      cases h.here.symm.trans ht
      obtain ⟨r, hcomplete, rfl⟩ := Option.map_eq_some_iff.mp hthread
      have hgo := stepComplete_go h.ready hchoice hcomplete
      by_cases hpc : pc.remaining = 0
      · cases h.ready.eq_returned hpc
        cases hgo
      · obtain ⟨pc', s', hnext, h', -⟩ := h.next hpc
        rw [step_complete h.here hgo] at hnext
        cases hnext
        exact ⟨pc', h'⟩
    · obtain ⟨t, _, ht, hthread, rfl⟩ := step_run hstep
      obtain ⟨number, upc, rfl, hnumber, hcurrent⟩ := h.others j t ht hji
      obtain ⟨r, hupload, rfl⟩ := Option.map_eq_some_iff.mp hthread
      have hpart := h.done.recorded number hnumber
      obtain ⟨hsh, hcurrent'⟩ := stepUpload_still hupload (.inr ⟨by rw [hpart]; rfl, h.done.buf_lookup number⟩) hcurrent
      refine ⟨pc, ?_, ?_, by rw [getElem?_set_ne hji, h.here],
        forall_getElem?_set h.others fun _ => ⟨number, r.2, rfl, hnumber, hcurrent'⟩⟩
      · dsimp only
        rw [hsh]
        exact { h.done with }
      · dsimp only
        rw [hsh]
        exact h.ready.buffered _

/-- The completion alone gets to its end. -/
theorem Completing.finish : ∀ {k : Nat} {pc : CompletePc} {s : State η}, Completing c n f i pc s → pc.remaining = k →
    ∃ s', (replicate k (Action.run i .go)).foldlM (Multipart.step c) s = some s' ∧
      s'.threads[i]? = some (.complete (listed c n f) (.returned true))
  | 0, pc, s, h, hpc => by
    cases h.ready.eq_returned hpc
    exact ⟨s, rfl, h.here⟩
  | k + 1, pc, s, h, hpc => by
    obtain ⟨pc', s₁, hstep, h₁, hremaining⟩ := h.next (by omega)
    obtain ⟨s', hrun, hdone⟩ := h₁.finish (k := k) (by omega)
    refine ⟨s', ?_, hdone⟩
    rw [replicate_succ, foldlM_cons, hstep]
    exact hrun

/-- A completion that comes when every part is acknowledged, and no request is writing, succeeds: however it is
interleaved with more requests for the same parts, it is never turned away and gets to its end. -/
theorem acknowledged_completes {s s₁ s₂ : State η} (hs : Relation.ReflTransGen (Clean c n f) (start η) s)
    (hacked : ∀ k, 1 ≤ k ∧ k ≤ n → ∃ body, .upload k body (.returned true) ∈ s.threads)
    (hquiet : ∀ t ∈ s.threads, t.current = none)
    (hrequest : step c s (.request (.complete (listed c n f))) = some s₁)
    (hrun : Relation.ReflTransGen (Clean c n f) s₁ s₂) :
    ∃ pc s₃, s₂.threads[s.threads.length]? = some (.complete (listed c n f) pc) ∧
      (List.replicate pc.remaining (.run s.threads.length .go)).foldlM (step c) s₂ = some s₃ ∧
      s₃.threads[s.threads.length]? = some (.complete (listed c n f) (.returned true)) := by
  have h := Run.invariant (fun _ _ h hstep => h.step hstep) hs (uploading_start (c := c) (n := n) (f := f))
  cases hrequest
  have hcompleting : Completing c n f s.threads.length .load
      { s with threads := s.threads ++ [.complete (listed c n f) .load] } := by
    refine ⟨h.done hquiet hacked, ⟨h.registered, h.opened.closed, h.opened.pending⟩, getElem?_concat_length, ?_⟩
    intro j t hj hne
    obtain ⟨hlt, -⟩ := List.getElem?_eq_some_iff.mp hj
    rw [length_append, length_singleton] at hlt
    rw [getElem?_append_left (by omega)] at hj
    obtain ⟨number, pc, rfl, hnumber, -⟩ := h.calls t (mem_of_getElem? hj)
    exact ⟨number, pc, rfl, hnumber, hquiet _ (mem_of_getElem? hj)⟩
  obtain ⟨pc, h₂⟩ := @Run.invariant _ _ (fun s' => ∃ pc, Completing c n f s.threads.length pc s')
    (fun _ _ ⟨_, h⟩ hstep => h.step hstep) _ _ hrun ⟨_, hcompleting⟩
  obtain ⟨s₃, hfinish, hdone⟩ := h₂.finish rfl
  exact ⟨pc, s₃, h₂.here, hfinish, hdone⟩

theorem clean_of_foldlM {actions : List (Action η)} (hallowed : ∀ a ∈ actions, ∀ s, Allowed n f s a)
    (h : actions.foldlM (step c) s = some s') : Relation.ReflTransGen (Clean c n f) s s' := by
  induction actions generalizing s with
  | nil =>
    cases h
    exact .refl
  | cons a actions ih =>
    rw [foldlM_cons] at h
    obtain ⟨s₁, hfirst, hrest⟩ := Option.bind_eq_some_iff.mp h
    obtain ⟨ha, hothers⟩ := forall_mem_cons.mp hallowed
    exact .head ⟨a, ha s, hfirst⟩ (ih hothers hrest)

end Completion

/-- The only part has one byte. -/
def byteSeven (_ : Nat) : Body := [7]

/-- The byte of the part. -/
def byteSixPlus (number : Nat) : Body := [UInt8.ofNat (6 + number)]

/-- The first part is sent once more while the completion is on its way. -/
theorem acknowledged_completes_two : ∃ s s₁ s₂ s₃ : State Body,
    Relation.ReflTransGen (Clean plain 2 byteSixPlus) (start Body) s ∧
    step plain s (.request (.complete (listed plain 2 byteSixPlus))) = some s₁ ∧
    (.request (.upload 1 [7]) :: runs 3 2 ++ runs 4 2).foldlM (step plain) s₁ = some s₂ ∧
    (runs 3 3).foldlM (step plain) s₂ = some s₃ ∧
    s₃.threads[3]? = some (.complete [(1, [7]), (2, [8])] (.returned true)) := by
  obtain ⟨s, s₁, s₂, hrun, hthreads, hrequest, hmore, hpc⟩ :
    ∃ s s₁ s₂, (outOfOrder [8]).foldlM (step plain) (start Body) = some s ∧
      s.threads = [.upload 2 [8] (.returned true), .upload 2 [8] (.returned true), .upload 1 [7] (.returned true)] ∧
      step plain s (.request (.complete (listed plain 2 byteSixPlus))) = some s₁ ∧
      (.request (.upload 1 [7]) :: runs 3 2 ++ runs 4 2).foldlM (step plain) s₁ = some s₂ ∧
      s₂.threads[3]? = some (.complete (listed plain 2 byteSixPlus) .close) := ⟨_, _, _, rfl, rfl, rfl, rfl, rfl⟩
  have hclean : Relation.ReflTransGen (Clean plain 2 byteSixPlus) (start Body) s :=
    clean_of_foldlM (by simp [outOfOrder, runs, Allowed, byteSixPlus]) hrun
  have hclean' : Relation.ReflTransGen (Clean plain 2 byteSixPlus) s₁ s₂ :=
    clean_of_foldlM (by simp [runs, Allowed, byteSixPlus]) hmore
  have hacked : ∀ k, 1 ≤ k ∧ k ≤ 2 → ∃ body, .upload k body (.returned true) ∈ s.threads := by
    intro k hk
    obtain rfl | rfl : k = 1 ∨ k = 2 := by omega
    · exact ⟨[7], by simp [hthreads]⟩
    · exact ⟨[8], by simp [hthreads]⟩
  have hquiet : ∀ t ∈ s.threads, t.current = none := by
    rw [hthreads]
    simp [Thread.current]
  obtain ⟨pc, s₃, hpc', hfinish, hdone⟩ := acknowledged_completes hclean hacked hquiet hrequest hclean'
  rw [show s.threads.length = 3 by rw [hthreads]; rfl] at hpc' hfinish hdone
  cases hpc.symm.trans hpc'
  exact ⟨s, s₁, s₂, s₃, hclean, hrequest, hmore, hfinish, hdone⟩

/-- The client repeats its only part while the first copy is being written, and the repeated request is acknowledged at
once. The completion that it sends then finds the part on record, but not streamed: it fails, and takes the upload
down. -/
theorem acknowledged_not_completed :
    ∃ s s₁ s₂ : State Body, Relation.ReflTransGen (Clean plain 1 byteSeven) (start Body) s ∧
    (∀ k, 1 ≤ k ∧ k ≤ 1 → ∃ body, .upload k body (.returned true) ∈ s.threads) ∧
    step plain s (.request (.complete (listed plain 1 byteSeven))) = some s₁ ∧
    Relation.ReflTransGen (Clean plain 1 byteSeven) s₁ s₂ ∧
    s₂.threads[s.threads.length]? = some (.complete (listed plain 1 byteSeven) (.returned false)) := by
  obtain ⟨s, s₁, s₂, hrun, hthreads, hrequest, hrun', hfailed⟩ : ∃ s s₁ s₂,
      (.request (.upload 1 [7]) :: runs 0 3 ++ .request (.upload 1 [7]) :: runs 1 3).foldlM (step plain) (start Body) =
      some s ∧ s.threads = [.upload 1 [7] (.writing [7] 0), .upload 1 [7] (.returned true)] ∧
      step plain s completion = some s₁ ∧ (runs 2 6).foldlM (step plain) s₁ = some s₂ ∧
      s₂.threads[2]? = some (.complete [(1, [7])] (.returned false)) := ⟨_, _, _, rfl, rfl, rfl, rfl, rfl⟩
  refine ⟨s, s₁, s₂, clean_of_foldlM ?_ hrun, ?_, hrequest, clean_of_foldlM ?_ hrun', by rw [hthreads]; exact hfailed⟩
  · simp [runs, Allowed, byteSeven]
  · intro k hk
    obtain rfl : k = 1 := by omega
    exact ⟨[7], by simp [hthreads]⟩
  · simp [runs, Allowed]

end ZClone.S3.Multipart
