import ZClone.Recover.UploadSpec

/-!
# Resuming

The worlds that any number of stopped and resumed invocations of `upload` with the same arguments lead to. In all of
them the journal is one that the next invocation opens and replays (`upload_resumes`).
-/

namespace ZClone.Recover

open Lib Lib.Prog

variable (L : Python) (args : Args) (src : Nat → Source)

/-- The worlds between invocations, starting without a journal. -/
inductive Reached : World → Prop
  | start (w : World) : w.journal = [] → w.verified = [] → Reached w
  | next {w : World} : Reached w → Reached (upload L src args w).2

variable {L args src} {w : World}

/-- What survives a stop is so between all invocations. -/
theorem Reached.durable (h : Reached L args src w) : Durable L args src w := by
  induction h with
  | start w hj _ => exact ⟨[], [], by rw [hj]; rfl, by simp, .inl rfl⟩
  | @next w _ ih =>
    have hspec := upload_spec 0 w ⟨ih, Nat.zero_le _⟩
    rcases hu : upload L src args w with ⟨e | path, w'⟩
    · rw [hu] at hspec; exact hspec.1
    · rw [hu] at hspec
      obtain ⟨_, _, _, _, _, hd, _⟩ := hspec
      exact hd

/-- A world with what survives a stop has a journal that opens and replays. -/
theorem Durable.resumes (h : Durable L args src w) :
    ∃ j r, Journal.enter L w.journal = .ok j ∧ replay j.events.tail = .ok r := by
  obtain ⟨es, t, hfile, ht, rfl | ⟨header, v, B, groups, rfl, hs, ho⟩⟩ := h
  · exact ⟨_, Replay.start, by rw [hfile]; exact Journal.enter_render [] ht, rfl⟩
  · obtain ⟨r, hr, -⟩ := replay_of_groups ho.recorded.ordered
    exact ⟨Journal.ofEvents L (sessionEvents header groups), r, by rw [hfile]; exact Journal.enter_render _ ht, hr⟩

variable (L args src)

/-- **An upload can always be resumed.** Wherever invocations with the same arguments were stopped, the next one opens
the journal, replays it, and does not stop with an error about the journal or a layout; and what the replay loop
accepts are exactly the chunks `0, …, k` in order, each with a path in `prepared → (uploaded →) verified` and one
record, all but the last verified. -/
theorem upload_resumes :
    (∀ w, Reached L args src w →
      (∃ j r, Journal.enter L w.journal = .ok j ∧ replay j.events.tail = .ok r) ∧
      ∀ e, (upload L src args w).1 = .error e → e ∉ refusals) ∧
    ∀ events r, replay events = .ok r → Shape events := by
  refine ⟨fun w hw => ⟨hw.durable.resumes, fun e he => ?_⟩, fun events r hr => replay_ok_iff.1 ⟨r, hr⟩⟩
  have hspec := upload_spec 0 w ⟨hw.durable, Nat.zero_le _⟩
  rcases hu : upload L src args w with ⟨e' | path, w'⟩
  · rw [hu] at hspec he
    cases he
    exact hspec.2
  · rw [hu] at he
    cases he

end ZClone.Recover
