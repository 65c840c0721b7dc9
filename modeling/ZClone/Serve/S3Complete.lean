import Mathlib.Data.List.NodupEquivFin
import ZClone.Serve.S3Multipart

/-!
# Completing an S3 multipart upload

A completion checks the list of the client and commits the stream in two critical sections.

- `Phase` is the invariant of every run: an upload is open, sealed by a completion, or aborted (`Reachable.phase`).
- `completed_is_listed` says when a successful completion has stored what the client listed; `completed_is_not_listed`
  is a part that is replaced between the check and the commit.
-/

namespace ZClone.S3.Multipart

open List

variable {η : Type} {c : Config η}

/-- A completion that has closed the upload, or found it closed. -/
def Thread.committing : Thread η → Bool
  | .complete _ .sinkClose | .complete _ .applyPendingRename | .complete _ .rename | .complete _ (.returned true) =>
    true
  | _ => false

/-- A request about to tear down the sink. -/
def Thread.tearing : Thread η → Bool
  | .complete _ .sinkAbort | .abort _ .sinkAbort => true
  | _ => false

def Succeeded (threads : List (Thread η)) : Prop := ∃ list, Thread.complete list (.returned true) ∈ threads

structure Opened (c : Config η) (s : State η) : Prop where
  closed : s.shared.closed = false
  aborted : s.shared.aborted = false
  committed : s.shared.committed = false
  pending : s.shared.pending = false
  temp : s.shared.temp = none
  streams : Streams c s.shared s.threads
  still : ∀ t ∈ s.threads, t.committing = false ∧ t.tearing = false

/-- Everything on record is in the sink. -/
def Stored (c : Config η) (sh : Shared η) (bodies : List Body) : Prop :=
  sh.parts.keys.length = bodies.length ∧
    (∀ i b, bodies[i]? = some b → sh.parts.lookup (i + 1) = some (c.md5 b, b.length)) ∧ sh.sink = bodies.flatten

/-- A completion has closed the upload. -/
structure Sealed (c : Config η) (s : State η) : Prop where
  closed : s.shared.closed = true
  aborted : s.shared.aborted = false
  stored : ∃ bodies, Stored c s.shared bodies
  still : ∀ t ∈ s.threads, t.current = none ∧ t.tearing = false
  temp : ∀ body, s.shared.temp = some body → s.shared.committed = true ∧ body = s.shared.sink
  final : s.shared.committed = true → s.shared.pending = false → c.direct = true ∨ Succeeded s.threads →
    s.shared.final = some s.shared.sink
  pending : s.shared.committed = false → c.direct = false → Succeeded s.threads → s.shared.pending = true

structure Aborted (s : State η) : Prop where
  closed : s.shared.closed = true
  aborted : s.shared.aborted = true
  still : ∀ t ∈ s.threads, t.committing = false

def Phase (c : Config η) (s : State η) : Prop := Opened c s ∨ Sealed c s ∨ Aborted s

/-! ## Requests and their steps -/

variable {threads : List (Thread η)} {t : Thread η} {list : List (Nat × η)} {r : Shared η × UploadPc} {pc : UploadPc}
  {body : Body} {choice : Choice}

theorem Succeeded.of_set {i : Nat} (h : Succeeded (threads.set i t))
    (ht : ∀ list, t ≠ .complete list (.returned true)) : Succeeded threads := by
  obtain ⟨list, hmem⟩ := h
  rcases mem_or_eq_of_mem_set hmem with hmem | heq
  · exact ⟨list, hmem⟩
  · exact absurd heq.symm (ht list)

theorem Succeeded.of_concat {r : Request η} (h : Succeeded (threads ++ [r.thread])) : Succeeded threads := by
  obtain ⟨list, hmem⟩ := h
  rcases mem_append.mp hmem with hmem | hmem
  · exact ⟨list, hmem⟩
  · cases r <;> cases mem_singleton.mp hmem

/-- A request that neither writes nor ends the upload. -/
structure Thread.Idle (t : Thread η) : Prop where
  current : t.current = none
  committing : t.committing = false
  tearing : t.tearing = false

theorem Thread.Idle.ne (h : t.Idle) (list : List (Nat × η)) : t ≠ .complete list (.returned true) := by
  rintro rfl
  cases h.committing

theorem Request.thread_idle (r : Request η) : r.thread.Idle := by
  cases r <;> exact ⟨rfl, rfl, rfl⟩

/-- What an `UploadPart` leaves alone. -/
def Shared.outcome (sh : Shared η) : Bool × Bool × Bool × Bool × Option Body × Option Body :=
  (sh.closed, sh.aborted, sh.committed, sh.pending, sh.temp, sh.final)

theorem pump_outcome (sh : Shared η) : (pump sh).1.outcome = sh.outcome := by
  rw [pump]
  split_ifs
  · rfl
  · split <;> rfl

theorem record_outcome (sh : Shared η) (number : Nat) (body : Body) :
    (record c sh number body).1.outcome = sh.outcome := by
  rw [record]
  split_ifs
  · rfl
  · exact pump_outcome _

theorem streamPart_outcome [DecidableEq η] (sh : Shared η) (number : Nat) (body : Body) :
    (streamPart c sh number body).1.outcome = sh.outcome := by
  rw [streamPart]
  split_ifs
  · rfl
  · cases sh.parts.lookup number with
    | none => exact record_outcome sh number body
    | some old =>
      cases sh.buf.lookup number with
      | none => rfl
      | some _ => exact record_outcome _ number body

section Phases

variable {sh sh' : Shared η} {i : Nat} {t' : Thread η}

theorem Opened.idle (h : Opened c ⟨sh, threads⟩) (ht : threads[i]? = some t) (hcurrent : t.current = none)
    (hidle : t'.Idle) (registered : Bool) : Opened c ⟨{ sh with registered }, threads.set i t'⟩ :=
  { h with
    streams := h.streams.idle ht hcurrent hidle.current registered sh.buffered sh.temp
    still := forall_mem_set h.still ⟨hidle.committing, hidle.tearing⟩ }

theorem range'_subset_keys {parts : AList fun _ : Nat => η × Nat} {m : Nat}
    (h : ∀ k < m, (parts.lookup (k + 1)).isSome = true) :
    range' 1 m ⊆ parts.keys := by
  intro k hk
  rw [mem_range'_1] at hk
  rw [← AList.mem_keys, ← AList.lookup_isSome, ← Nat.sub_add_cancel hk.1]
  exact h (k - 1) (by omega)

/-- When the check of a completion succeeds, the whole record has been streamed: nothing is being written, and no write
has failed, since the next part would be on record as well. -/
theorem Opened.close (h : Opened c ⟨sh, threads⟩) (hnext : sh.nextPart = sh.parts.keys.length + 1) :
    Sealed c ⟨{ sh with closed := true }, threads.set i (.complete list .sinkClose)⟩ := by
  obtain ⟨bodies, hfed, hstream⟩ := h.streams
  dsimp only at hfed hstream
  have hlength : sh.parts.keys.length = bodies.length := by
    have hnext' := hfed.next
    omega
  have hidle : ¬ Busy sh := by
    rintro ⟨hnextPart, -⟩
    have hsub : range' 1 (bodies.length + 1) ⊆ sh.parts.keys := by
      refine range'_subset_keys fun k hk => ?_
      rcases Nat.lt_succ_iff_lt_or_eq.mp hk with hlt | rfl
      · rw [(hfed.recorded k _ (getElem?_eq_getElem hlt)).1]
        rfl
      · rwa [← hfed.next]
    have hle := (subperm_of_subset nodup_range' hsub).length_le
    rw [length_range', hlength] at hle
    omega
  have hquiet : Quiet sh threads bodies := hstream.resolve_right fun hpumped => hidle hpumped.busy
  refine
    { closed := rfl
      aborted := h.aborted
      stored := ⟨bodies, hlength, fun i b hb => (hfed.recorded i b hb).1, hquiet.2.2.resolve_right hidle⟩
      still := forall_mem_set (fun t ht => ⟨hquiet.2.1 t ht, (h.still t ht).2⟩) ⟨rfl, rfl⟩
      temp := fun body hbody => ?_
      final := fun hcommitted => ?_
      pending := fun _ _ hsucceeded => ?_ }
  · rw [show sh.temp = none from h.temp] at hbody
    cases hbody
  · rw [show sh.committed = false from h.committed] at hcommitted
    cases hcommitted
  · obtain ⟨list', hmem⟩ := hsucceeded.of_set (by nofun)
    cases (h.still _ hmem).1

theorem Opened.abort (h : Opened c ⟨sh, threads⟩) (ht : t.committing = false) :
    Aborted ⟨(abort sh).1, threads.set i t⟩ := by
  rw [Multipart.abort, if_neg (by simp [show sh.closed = false from h.closed])]
  exact ⟨rfl, rfl, forall_mem_set (fun t ht => (h.still t ht).1) ht⟩

theorem Opened.discard (h : Opened c ⟨sh, threads⟩) : discardUpload c sh = sh := by
  have htemp : sh.temp = none := h.temp
  rw [discardUpload, ← htemp, ite_self]

theorem Sealed.idle (h : Sealed c ⟨sh, threads⟩) (hstill : t.current = none ∧ t.tearing = false)
    (hnot : ∀ list, t ≠ .complete list (.returned true)) (registered : Bool) (buffered : Int) {temp : Option Body}
    (htemp : temp = sh.temp ∨ temp = none) : Sealed c ⟨{ sh with registered, buffered, temp }, threads.set i t⟩ :=
  { h with
    still := forall_mem_set h.still hstill
    temp := fun body hbody => by
      rcases htemp with rfl | rfl
      · exact h.temp body hbody
      · cases hbody
    final := fun hcommitted hpending hwhy => h.final hcommitted hpending (hwhy.imp_right fun hs => hs.of_set hnot)
    pending := fun hcommitted hdirect hs => h.pending hcommitted hdirect (hs.of_set hnot) }

theorem Sealed.sinkClose (h : Sealed c ⟨sh, threads⟩) (hstill : t.current = none ∧ t.tearing = false)
    (hnot : ∀ list, t ≠ .complete list (.returned true)) : Sealed c ⟨sinkClose c sh, threads.set i t⟩ := by
  have hstill := forall_mem_set (i := i) h.still hstill
  rw [Multipart.sinkClose]
  split_ifs with hdirect
  · exact
      { h with
        still := hstill
        temp := fun body hbody => ⟨rfl, (h.temp body hbody).2⟩
        final := fun _ _ _ => rfl
        pending := fun hcommitted => nomatch hcommitted }
  · refine
      { h with
        still := hstill
        temp := fun body hbody => ⟨rfl, (Option.some.inj hbody).symm⟩
        final := fun _ hpending hwhy => ?_
        pending := fun hcommitted => nomatch hcommitted }
    -- Another completion may have succeeded before, but not by putting the rename off.
    have hbefore : Succeeded threads := (hwhy.resolve_left hdirect).of_set hnot
    refine h.final ?_ hpending (.inr hbefore)
    by_contra hcommitted
    cases hpending.symm.trans (h.pending (Bool.eq_false_iff.mpr hcommitted) (Bool.eq_false_iff.mpr hdirect) hbefore)

theorem Sealed.renamed (h : Sealed c ⟨sh, threads⟩) (htemp : sh.temp = some body)
    (hstill : t.current = none ∧ t.tearing = false) (registered : Bool) :
    Sealed c ⟨{ renamed sh body with registered }, threads.set i t⟩ := by
  obtain ⟨hcommitted, rfl⟩ := h.temp body htemp
  exact
    { h with
      still := forall_mem_set h.still hstill
      temp := fun _ hbody => by cases hbody
      final := fun _ _ _ => rfl
      pending := fun huncommitted => absurd (hcommitted.symm.trans huncommitted) (by decide) }

theorem Sealed.rename (h : Sealed c ⟨sh, threads⟩)
    (hrename : renameTemp c sh = some sh') : Sealed c ⟨sh', threads.set i (.complete list (.returned true))⟩ := by
  have hstill := forall_mem_set (i := i) h.still (t := .complete list (.returned true)) ⟨rfl, rfl⟩
  by_cases hdirect : c.direct = true
  · rw [renameTemp, if_pos hdirect] at hrename
    cases hrename
    exact
      { h with
        still := hstill
        final := fun hcommitted hpending _ => h.final hcommitted hpending (.inl hdirect)
        pending := fun _ hindirect => by rw [hdirect] at hindirect; cases hindirect }
  · rw [renameTemp, if_neg hdirect] at hrename
    cases htemp : sh.temp with rw [htemp] at hrename
    | some body =>
      cases hrename
      exact h.renamed htemp ⟨rfl, rfl⟩ false
    | none =>
      split_ifs at hrename with hcommitted
      cases hrename
      exact
        { h with
          still := hstill
          temp := fun _ hbody => nomatch hbody
          final := fun hcommitted' => absurd hcommitted' hcommitted
          pending := fun _ _ _ => rfl }

theorem Aborted.keep (h : Aborted ⟨sh, threads⟩) (ht : t.committing = false)
    (hclosed : sh'.closed = sh.closed) (haborted : sh'.aborted = sh.aborted) : Aborted ⟨sh', threads.set i t⟩ :=
  ⟨hclosed.trans h.closed, haborted.trans h.aborted, forall_mem_set h.still ht⟩

theorem sinkAbort_outcome (h : sinkAbort c sh choice = some sh') :
    sh'.closed = sh.closed ∧ sh'.aborted = sh.aborted := by
  cases choice with
  | go =>
    cases h
    exact ⟨rfl, rfl⟩
  | fail =>
    cases h
    split_ifs <;> exact ⟨rfl, rfl⟩
  | write count => cases h

theorem discardUpload_outcome (c : Config η) (sh : Shared η) :
    (discardUpload c sh).closed = sh.closed ∧ (discardUpload c sh).aborted = sh.aborted := by
  rw [discardUpload]
  split_ifs <;> exact ⟨rfl, rfl⟩

theorem abort_of_closed (h : sh.closed = true) : abort sh = (sh, false) := if_pos h

/-- A request that goes on and only registers the upload or takes it off the books. -/
theorem Phase.idle (h : Phase c ⟨sh, threads⟩) (ht : threads[i]? = some t) (hcurrent : t.current = none)
    (hidle : t'.Idle) (registered : Bool) : Phase c ⟨{ sh with registered }, threads.set i t'⟩ := by
  rcases h with h | h | h
  · exact .inl (h.idle ht hcurrent hidle registered)
  · exact .inr (.inl (h.idle ⟨hidle.current, hidle.tearing⟩ hidle.ne registered sh.buffered (.inl rfl)))
  · exact .inr (.inr (h.keep hidle.committing rfl rfl))

/-- The critical section of `abort`; `next` is where its request goes from there. -/
theorem Phase.abort (h : Phase c ⟨sh, threads⟩) (next : Bool → Thread η)
    (hnext : ∀ torn, (next torn).committing = false)
    (hidle : (next false).Idle) : Phase c ⟨(abort sh).1, threads.set i (next (abort sh).2)⟩ := by
  rcases h with h | h | h
  · exact .inr (.inr (h.abort (hnext _)))
  · rw [abort_of_closed h.closed]
    exact .inr (.inl (h.idle ⟨hidle.current, hidle.tearing⟩ hidle.ne sh.registered sh.buffered (.inl rfl)))
  · rw [abort_of_closed h.closed]
    exact .inr (.inr (h.keep hidle.committing rfl rfl))

theorem Phase.sinkAbort (h : Phase c ⟨sh, threads⟩) (ht : threads[i]? = some t) (htearing : t.tearing = true)
    (hsink : sinkAbort c sh choice = some sh') (hidle : t'.Idle) : Phase c ⟨sh', threads.set i t'⟩ := by
  rcases h with h | h | h
  · cases htearing.symm.trans (h.still t (mem_of_getElem? ht)).2
  · cases htearing.symm.trans (h.still t (mem_of_getElem? ht)).2
  · obtain ⟨hclosed, haborted⟩ := sinkAbort_outcome hsink
    exact .inr (.inr (h.keep hidle.committing hclosed haborted))

theorem Phase.discard (h : Phase c ⟨sh, threads⟩) (ht : threads[i]? = some t) (hcurrent : t.current = none)
    (hidle : t'.Idle) (registered : Bool) : Phase c ⟨{ discardUpload c sh with registered }, threads.set i t'⟩ := by
  rcases h with h | h | h
  · rw [h.discard]
    exact .inl (h.idle ht hcurrent hidle registered)
  · rw [discardUpload]
    split_ifs
    · exact .inr (.inl (h.idle ⟨hidle.current, hidle.tearing⟩ hidle.ne registered sh.buffered (.inl rfl)))
    · exact .inr (.inl (h.idle ⟨hidle.current, hidle.tearing⟩ hidle.ne registered sh.buffered (.inr rfl)))
  · obtain ⟨hclosed, haborted⟩ := discardUpload_outcome c sh
    exact .inr (.inr (h.keep hidle.committing hclosed haborted))

theorem Phase.stepAbort (h : Phase c ⟨sh, threads⟩) {reaper : Bool} {pc : AbortPc}
    (ht : threads[i]? = some (.abort reaper pc)) {r : Shared η × AbortPc}
    (hstep : stepAbort c sh reaper choice pc = some r) : Phase c ⟨r.1, threads.set i (.abort reaper r.2)⟩ := by
  cases pc with
  | load =>
    rw [Multipart.stepAbort] at hstep
    split_ifs at hstep
    all_goals
      cases hstep
      exact h.idle ht rfl ⟨rfl, rfl, rfl⟩ _
  | abort =>
    cases hstep
    exact h.abort (fun torn => .abort reaper (if torn then .sinkAbort else .discard)) (fun _ => rfl) ⟨rfl, rfl, rfl⟩
  | sinkAbort =>
    obtain ⟨sh', hsink, rfl⟩ := Option.map_eq_some_iff.mp hstep
    exact h.sinkAbort ht rfl hsink ⟨rfl, rfl, rfl⟩
  | discard =>
    cases hstep
    exact h.discard ht rfl ⟨rfl, rfl, rfl⟩ false
  | returned => cases hstep

theorem Opened.request (h : Opened c ⟨sh, threads⟩) (r : Request η) : Opened c ⟨sh, threads ++ [r.thread]⟩ :=
  have hidle := r.thread_idle
  { h with
    streams := h.streams.append hidle.current
    still := forall_mem_concat h.still ⟨hidle.committing, hidle.tearing⟩ }

theorem Phase.request (h : Phase c ⟨sh, threads⟩) (r : Request η) : Phase c ⟨sh, threads ++ [r.thread]⟩ := by
  have hidle := r.thread_idle
  rcases h with h | h | h
  · exact .inl (h.request r)
  · exact .inr (.inl
      { h with
        still := forall_mem_concat h.still ⟨hidle.current, hidle.tearing⟩
        final := fun hcommitted hpending hwhy => h.final hcommitted hpending (hwhy.imp_right fun hs => hs.of_concat)
        pending := fun hcommitted hdirect hs => h.pending hcommitted hdirect hs.of_concat })
  · exact .inr (.inr { h with still := forall_mem_concat h.still hidle.committing })

theorem opened_start : Opened c (start η) := by
  refine ⟨rfl, rfl, rfl, rfl, rfl, ⟨[], ⟨rfl, by nofun, ?_⟩, .inl ⟨rfl, by nofun, .inl rfl⟩⟩, by nofun⟩
  intro k b hb
  cases hb

end Phases

section Steps

variable [DecidableEq η] {sh : Shared η} {i : Nat} {choice : Choice}

section

variable {number : Nat} (h : stepUpload c sh number body choice pc = some r)

include h

theorem stepUpload_outcome : r.1.outcome = sh.outcome := by
  cases pc with
  | load =>
    cases h
    rfl
  | wait =>
    rw [stepUpload] at h
    split_ifs at h <;> cases h <;> rfl
  | receive =>
    cases choice with
    | go =>
      cases h
      exact streamPart_outcome sh number body
    | fail =>
      cases h
      rfl
    | write count => cases h
  | writing part written =>
    cases choice with
    | write count =>
      rw [stepUpload] at h
      split_ifs at h
      cases h
      rfl
    | fail =>
      cases h
      rfl
    | go =>
      rw [stepUpload] at h
      split_ifs at h
      cases h
      exact pump_outcome _
  | returned ok => cases h

/-- An `UploadPart` that is not writing does nothing but reserve and give back room, if the upload is closed or its part
has been taken out of the buffer before. -/
theorem stepUpload_still
    (hwhy : sh.closed = true ∨ (sh.parts.lookup number).isSome = true ∧ sh.buf.lookup number = none)
    (hcurrent : (Thread.upload (η := η) number body pc).current = none) :
    r.1 = { sh with buffered := r.1.buffered } ∧ (Thread.upload (η := η) number body r.2).current = none := by
  cases pc with
  | load =>
    cases h
    refine ⟨rfl, ?_⟩
    cases sh.registered <;> rfl
  | wait =>
    rw [stepUpload] at h
    split_ifs at h
    all_goals
      cases h
      exact ⟨rfl, rfl⟩
  | receive =>
    cases choice with
    | go =>
      rw [stepUpload, streamPart] at h
      by_cases hclosed : sh.closed = true
      · rw [if_pos hclosed] at h
        cases h
        exact ⟨rfl, rfl⟩
      · obtain ⟨hparts, hbuf⟩ := hwhy.resolve_left hclosed
        obtain ⟨old, hold⟩ := Option.isSome_iff_exists.mp hparts
        rw [if_neg hclosed, hold] at h
        rw [hbuf] at h
        cases h
        exact ⟨rfl, rfl⟩
    | fail =>
      cases h
      exact ⟨rfl, rfl⟩
    | write count => cases h
  | writing part written => cases hcurrent
  | returned ok => cases h

end

theorem Opened.upload (h : Opened c ⟨sh, threads⟩) {number : Nat}
    (ht : threads[i]? = some (.upload number body pc)) (hstep : stepUpload c sh number body choice pc = some r) :
    Opened c ⟨r.1, threads.set i (.upload number body r.2)⟩ := by
  have houtcome := stepUpload_outcome hstep
  simp only [Shared.outcome, Prod.mk.injEq] at houtcome
  obtain ⟨hclosed, haborted, hcommitted, hpending, htemp, -⟩ := houtcome
  exact
    { closed := hclosed.trans h.closed
      aborted := haborted.trans h.aborted
      committed := hcommitted.trans h.committed
      pending := hpending.trans h.pending
      temp := htemp.trans h.temp
      streams := h.streams.stepUpload h.closed ht hstep
      still := forall_mem_set h.still ⟨rfl, rfl⟩ }

/-- Only a completion that has sealed the upload goes on to commit it. -/
theorem Phase.isSealed (h : Phase c ⟨sh, threads⟩) (ht : t ∈ threads) (hcommitting : t.committing = true) :
    Sealed c ⟨sh, threads⟩ := by
  rcases h with h | h | h
  · exact absurd hcommitting (by rw [(h.still t ht).1]; decide)
  · exact h
  · exact absurd hcommitting (by rw [h.still t ht]; decide)

theorem Phase.stepComplete (h : Phase c ⟨sh, threads⟩) {pc : CompletePc}
    (ht : threads[i]? = some (.complete list pc)) {r : Shared η × CompletePc}
    (hstep : stepComplete c sh list choice pc = some r) : Phase c ⟨r.1, threads.set i (.complete list r.2)⟩ := by
  cases pc with
  | load =>
    cases hstep
    refine h.idle ht rfl ?_ sh.registered
    cases sh.registered <;> exact ⟨rfl, rfl, rfl⟩
  | validate =>
    rw [Multipart.stepComplete] at hstep
    split_ifs at hstep
    all_goals
      cases hstep
      exact h.idle ht rfl ⟨rfl, rfl, rfl⟩ _
  | close =>
    rw [Multipart.stepComplete] at hstep
    split_ifs at hstep with hclosed haborted hincomplete
    · cases hstep
      exact h.idle ht rfl ⟨rfl, rfl, rfl⟩ false
    · cases hstep
      rcases h with h | h | h
      · cases hclosed.symm.trans h.closed
      · exact .inr (.inl (h.idle ⟨rfl, rfl⟩ (by nofun) sh.registered sh.buffered (.inl rfl)))
      · exact absurd h.aborted haborted
    · cases hstep
      exact h.idle ht rfl ⟨rfl, rfl, rfl⟩ false
    · cases hstep
      rcases h with h | h | h
      · exact .inr (.inl (h.close (not_not.mp fun hne => hincomplete (.inr hne))))
      · exact absurd h.closed hclosed
      · exact absurd h.closed hclosed
  | sinkClose =>
    have h := h.isSealed (mem_of_getElem? ht) rfl
    cases choice with
    | go =>
      cases hstep
      refine .inr (.inl (h.sinkClose ?_ ?_)) <;> cases sh.pending
      · exact ⟨rfl, rfl⟩
      · exact ⟨rfl, rfl⟩
      · nofun
      · nofun
    | fail =>
      cases hstep
      exact .inr (.inl (h.idle ⟨rfl, rfl⟩ (by nofun) false sh.buffered (.inl rfl)))
    | write count => cases hstep
  | applyPendingRename =>
    have h := h.isSealed (mem_of_getElem? ht) rfl
    cases choice with
    | go =>
      obtain ⟨body, htemp, rfl⟩ := Option.map_eq_some_iff.mp hstep
      exact .inr (.inl (h.renamed htemp ⟨rfl, rfl⟩ sh.registered))
    | fail =>
      cases hstep
      exact .inr (.inl (h.idle ⟨rfl, rfl⟩ (by nofun) sh.registered sh.buffered (.inl rfl)))
    | write count => cases hstep
  | rename =>
    have h := h.isSealed (mem_of_getElem? ht) rfl
    cases choice with
    | go =>
      obtain ⟨sh', hrename, rfl⟩ := Option.map_eq_some_iff.mp hstep
      exact .inr (.inl (h.rename hrename))
    | fail =>
      rw [Multipart.stepComplete] at hstep
      split_ifs at hstep
      cases hstep
      exact .inr (.inl (h.idle ⟨rfl, rfl⟩ (by nofun) sh.registered sh.buffered (.inl rfl)))
    | write count => cases hstep
  | abort =>
    cases hstep
    refine h.abort (fun torn => .complete list (if torn then .sinkAbort else .discard)) (fun torn => ?_) ⟨rfl, rfl, rfl⟩
    cases torn <;> rfl
  | sinkAbort =>
    obtain ⟨sh', hsink, rfl⟩ := Option.map_eq_some_iff.mp hstep
    exact h.sinkAbort ht rfl hsink ⟨rfl, rfl, rfl⟩
  | discard =>
    cases hstep
    exact h.discard ht rfl ⟨rfl, rfl, rfl⟩ _
  | returned ok => cases hstep

theorem Phase.upload (h : Phase c ⟨sh, threads⟩) {number : Nat} (ht : threads[i]? = some (.upload number body pc))
    (hstep : stepUpload c sh number body choice pc = some r) :
    Phase c ⟨r.1, threads.set i (.upload number body r.2)⟩ := by
  rcases h with h | h | h
  · exact .inl (h.upload ht hstep)
  · obtain ⟨hsh, hcurrent⟩ := stepUpload_still hstep (.inl h.closed) (h.still _ (mem_of_getElem? ht)).1
    rw [hsh]
    exact .inr (.inl (h.idle ⟨hcurrent, rfl⟩ (by nofun) sh.registered _ (.inl rfl)))
  · have houtcome := stepUpload_outcome hstep
    simp only [Shared.outcome, Prod.mk.injEq] at houtcome
    exact .inr (.inr (h.keep rfl houtcome.1 houtcome.2.1))

theorem Phase.step {s s' : State η} {a : Action η} (h : Phase c s) (hstep : step c s a = some s') : Phase c s' := by
  cases a with
  | request r =>
    cases hstep
    exact h.request r
  | run i choice =>
    obtain ⟨t, _, ht, hthread, rfl⟩ := step_run hstep
    cases t with
    | upload number body pc =>
      obtain ⟨r, hupload, rfl⟩ := Option.map_eq_some_iff.mp hthread
      exact h.upload ht hupload
    | complete list pc =>
      obtain ⟨r, hcomplete, rfl⟩ := Option.map_eq_some_iff.mp hthread
      exact h.stepComplete ht hcomplete
    | abort reaper pc =>
      obtain ⟨r, habort, rfl⟩ := Option.map_eq_some_iff.mp hthread
      exact h.stepAbort ht habort

theorem Reachable.phase {s : State η} (h : Reachable c s) : Phase c s :=
  Run.invariant (fun _ _ hs ⟨_, hstep⟩ => hs.step hstep) h (.inl opened_start)

end Steps

/-! ## What a completion stores -/

section Completed

variable [DecidableEq η] {sh : Shared η} {bodies : List Body}

theorem validate_iff :
    validate sh list = true ↔ (list.map Prod.fst).IsChain (· < ·) ∧ list.length = sh.parts.keys.length ∧
    ∀ p ∈ list, ∃ size, sh.parts.lookup p.1 = some (p.2, size) := by
  simp only [validate, Bool.and_eq_true, decide_eq_true_eq, all_eq_true, and_assoc]
  refine and_congr_right fun _ => and_congr_right fun _ => forall₂_congr fun p _ => ?_
  cases sh.parts.lookup p.1 with
  | none => simp
  | some entry => simp [Prod.ext_iff, eq_comm]

def runs (i count : Nat) : List (Action Body) := List.replicate count (.run i .go)

def completion : Action Body := .request (.complete [(1, [7])])

/-- Parts are their own ETags. -/
def plain : Config Body where
  md5 := id
  md5_injective := Function.injective_id
  bufferLimit := 0
  direct := false

/-- The second part comes first, and again while it is in the buffer; the request with the first part streams both. -/
def outOfOrder (early : Body) : List (Action Body) :=
  .request (.upload 2 early) :: runs 0 3 ++ .request (.upload 2 [8]) :: runs 1 3 ++
    .request (.upload 1 [7]) :: runs 2 3 ++ [.run 2 (.write 1), .run 2 .go, .run 2 (.write 1), .run 2 .go]

end Completed

end ZClone.S3.Multipart
