import ZClone.Vfs.Overlay

/-!
# Writes and downloads at the same time

`WriteAt` writes to the cache file without the item lock and takes the lock only to mark what it wrote. A download takes
the lock for all it does.

- `Race` has the cache file and how far each `WriteAt` call has come, `Event` one step of one of them.
- `Holds`: the bytes of a call that has written are in the file, and marked once the call has finished.
- `writes_survive_iff`: all writes survive a run exactly if no download fills in other bytes between the two steps of a
  call.
-/

namespace ZClone.Vfs

open File Ranges CacheFile

/-- The arguments of a `WriteAt` call. -/
structure WriteCall where
  b : List UInt8
  off : Nat

/-- The byte is one the call writes. -/
def WriteCall.Has (w : WriteCall) (p : Nat) : Prop := w.off ≤ p ∧ p < w.off + w.b.length

/-- The byte the call writes at a position. -/
def WriteCall.byte (w : WriteCall) (p : Nat) : Option UInt8 := w.b[p - w.off]?

inductive Phase where
  | waiting
  /-- The file is written, the range not yet marked. -/
  | wrote
  | done
  deriving DecidableEq

inductive Event (ι : Type) where
  | write (i : ι)
  | mark (i : ι)
  | download (off len : Nat)

structure Race (ι : Type) where
  cache : CacheFile
  phase : ι → Phase

/-- The state after a call has come to the next phase. -/
def Race.move {ι : Type} [DecidableEq ι] (s : Race ι) (c : CacheFile) (i : ι) (phase : Phase) : Race ι :=
  ⟨c, Function.update s.phase i phase⟩

section

variable {ι : Type} [DecidableEq ι] (remote : List UInt8) (calls : ι → WriteCall) {i j : ι}

/-- One step; a call writes once and then marks once. -/
def Race.exec (s : Race ι) : Event ι → Option (Race ι)
  | .write i =>
    if s.phase i = .waiting then
      some (s.move (s.cache.writeFile (calls i).b (calls i).off) i .wrote)
    else none
  | .mark i =>
    if s.phase i = .wrote then
      some (s.move (s.cache.markWritten (calls i).off (calls i).b.length) i .done)
    else none
  | .download off len => some { s with cache := (s.cache.writeAtNoOverwrite (carried remote off len) off).cache }

/-- No two calls write the same byte. -/
def Disjoint : Prop := ∀ i j, i ≠ j → ∀ p, ¬ ((calls i).Has p ∧ (calls j).Has p)

/-- Every byte of every call has the value the call wrote. -/
def Survive (c : CacheFile) : Prop := ∀ i p, (calls i).Has p → c.file[p]? = (calls i).byte p

/-- A download that comes between the two steps of a call fills in only bytes the call wrote as well. -/
def Event.Harmless (s : Race ι) : Event ι → Prop
  | .download off len => ∀ i, s.phase i = .wrote → ∀ p, (calls i).Has p →
      s.cache.Filled off (carried remote off len).length p → remote[p]? = (calls i).byte p
  | _ => True

/-- All downloads of a run are harmless. -/
def AllHarmless : List (Event ι) → Race ι → Prop
  | [], _ => True
  | e :: es, s => e.Harmless remote calls s ∧ ∀ s', s.exec remote calls e = some s' → AllHarmless es s'

/-- The bytes of a call that has written are in the file, and marked once it has finished. -/
structure Holds (s : Race ι) : Prop where
  canonical : Canonical s.cache.rs
  wrote : ∀ i, s.phase i ≠ .waiting → ∀ p, (calls i).Has p → s.cache.file[p]? = (calls i).byte p
  marked : ∀ i, s.phase i = .done → ∀ p, (calls i).Has p → s.cache.Present p

/-- A byte of a call that has written was replaced, and is marked as present. -/
def Lost (s : Race ι) (i : ι) (p : Nat) : Prop :=
  Canonical s.cache.rs ∧ s.phase i ≠ .waiting ∧ (calls i).Has p ∧ s.cache.Present p ∧ p < s.cache.file.length ∧
    s.cache.file[p]? ≠ (calls i).byte p

variable {remote calls}

theorem move_phase_self (s : Race ι) (c : CacheFile) (i : ι) (phase : Phase) : (s.move c i phase).phase i = phase :=
  Function.update_self ..

theorem move_phase_of_ne (s : Race ι) (c : CacheFile) (h : i ≠ j) (phase : Phase) :
    (s.move c j phase).phase i = s.phase i := Function.update_of_ne h ..

variable {s s' : Race ι} {p : Nat} {e : Event ι} {es : List (Event ι)} {c : CacheFile}

theorem exec_write (h : s.exec remote calls (.write i) = some s') :
    s.phase i = .waiting ∧ s' = s.move (s.cache.writeFile (calls i).b (calls i).off) i .wrote := by
  simp only [Race.exec] at h
  split at h
  · rename_i hphase
    exact ⟨hphase, (Option.some.inj h).symm⟩
  · simp at h

theorem exec_mark (h : s.exec remote calls (.mark i) = some s') :
    s.phase i = .wrote ∧ s' = s.move (s.cache.markWritten (calls i).off (calls i).b.length) i .done := by
  simp only [Race.exec] at h
  split at h
  · rename_i hphase
    exact ⟨hphase, (Option.some.inj h).symm⟩
  · simp at h

theorem lt_length_of_eq_byte {w : WriteCall} (hp : w.Has p) (h : c.file[p]? = w.byte p) : p < c.file.length := by
  by_contra hge
  have hlen := hp.2
  have hlo := hp.1
  rw [List.getElem?_eq_none (by omega), WriteCall.byte, List.getElem?_eq_getElem (by omega)] at h
  simp at h

omit [DecidableEq ι] in
/-- A call touches no byte of another. -/
theorem writeFile_other (hdisj : Disjoint calls) (hij : i ≠ j) (hp : (calls i).Has p)
    (hlen : p < c.file.length) : (c.writeFile (calls j).b (calls j).off).file[p]? = c.file[p]? := by
  refine getElem?_pwrite_of_lt ?_ hlen
  have hnot : ¬ (calls j).Has p := fun hj => hdisj i j hij p ⟨hp, hj⟩
  rw [WriteCall.Has] at hnot
  omega

theorem Holds.step (hdisj : Disjoint calls) (h : Holds calls s)
    (hsafe : e.Harmless remote calls s) (hexec : s.exec remote calls e = some s') : Holds calls s' := by
  cases e with
  | write j =>
    obtain ⟨hphase, rfl⟩ := exec_write hexec
    refine ⟨h.canonical, fun i hi p hp => ?_, fun i hi p hp => ?_⟩
    · by_cases hij : i = j
      · subst hij
        exact getElem?_pwrite_of_mem hp.1 hp.2
      · rw [move_phase_of_ne s _ hij] at hi
        have hold := h.wrote i hi p hp
        exact (writeFile_other hdisj hij hp (lt_length_of_eq_byte hp hold)).trans hold
    · by_cases hij : i = j
      · rw [hij, move_phase_self] at hi
        exact Phase.noConfusion hi
      · rw [move_phase_of_ne s _ hij] at hi
        exact h.marked i hi p hp
  | mark j =>
    obtain ⟨hphase, rfl⟩ := exec_mark hexec
    obtain ⟨hcan, hfile, -, hpres⟩ := markWritten_spec h.canonical (calls j).off (calls j).b.length
    refine ⟨hcan, fun i hi p hp => ?_, fun i hi p hp => ?_⟩
    · change (s.cache.markWritten (calls j).off (calls j).b.length).file[p]? = _
      rw [hfile]
      refine h.wrote i ?_ p hp
      by_cases hij : i = j
      · simp [hij, hphase]
      · rwa [move_phase_of_ne s _ hij] at hi
    · by_cases hij : i = j
      · exact (hpres p).mpr (.inr (.inl (hij ▸ hp)))
      · rw [move_phase_of_ne s _ hij] at hi
        exact (hpres p).mpr (.inl (h.marked i hi p hp))
  | download off len =>
    obtain rfl := Option.some.inj hexec
    obtain ⟨-, -, hfills⟩ := writeAtNoOverwrite_spec h.canonical (carried remote off len) off
    refine ⟨hfills.canonical, fun i hi p hp => ?_, fun i hi p hp => (hfills.present p).mpr (.inl (h.marked i hi p hp))⟩
    by_cases hfill : s.cache.Filled off (carried remote off len).length p
    · -- only a call between its two steps has bytes that are not marked
      have hwrote : s.phase i = .wrote := by
        cases hcase : s.phase i with
        | waiting => exact absurd hcase hi
        | wrote => rfl
        | done => exact absurd (h.marked i hcase p hp) hfill.2.2
      rw [hfills.new p hfill, getElem?_carried hfill.1 hfill.2.1]
      exact hsafe i hwrote p hp hfill
    · have hold := h.wrote i hi p hp
      rw [hfills.old p hfill (lt_length_of_eq_byte hp hold), hold]

/-- What a download replaced stays replaced: it is marked, so that no later download touches it, and no other call
writes there. -/
theorem Lost.step (hdisj : Disjoint calls) (h : Lost calls s i p)
    (hexec : s.exec remote calls e = some s') : Lost calls s' i p := by
  obtain ⟨hcan, hphase, hp, hpres, hlen, hne⟩ := h
  cases e with
  | write j =>
    obtain ⟨hj, rfl⟩ := exec_write hexec
    have hij : i ≠ j := by
      rintro rfl
      exact hphase hj
    have hget := writeFile_other hdisj hij hp hlen
    refine ⟨hcan, by rwa [move_phase_of_ne s _ hij], hp, hpres, ?_, fun heq => hne (hget.symm.trans heq)⟩
    rw [List.getElem?_eq_getElem hlen] at hget
    exact (List.getElem?_eq_some_iff.mp hget).1
  | mark j =>
    obtain ⟨hj, rfl⟩ := exec_mark hexec
    obtain ⟨hcan', hfile, -, hpres'⟩ := markWritten_spec hcan (calls j).off (calls j).b.length
    rw [← hfile] at hlen hne
    refine ⟨hcan', ?_, hp, (hpres' p).mpr (.inl hpres), hlen, hne⟩
    by_cases hij : i = j
    · rw [hij, move_phase_self]
      exact Phase.noConfusion
    · rwa [move_phase_of_ne s _ hij]
  | download off len =>
    obtain rfl := Option.some.inj hexec
    obtain ⟨-, -, hfills⟩ := writeAtNoOverwrite_spec hcan (carried remote off len) off
    have hold := hfills.old p (fun hfill => hfill.2.2 hpres) hlen
    exact ⟨hfills.canonical, hphase, hp, (hfills.present p).mpr (.inl hpres), Nat.lt_of_lt_of_le hlen hfills.grows,
      by rwa [hold]⟩

/-- A download that is not harmless loses a byte. -/
theorem exists_lost (h : Holds calls s) (hbad : ¬ e.Harmless remote calls s)
    (hexec : s.exec remote calls e = some s') : ∃ i p, Lost calls s' i p := by
  cases e with
  | write | mark => exact absurd trivial hbad
  | download off len =>
    simp only [Event.Harmless] at hbad
    push Not at hbad
    obtain ⟨i, hphase, p, hp, hfill, hne⟩ := hbad
    obtain rfl := Option.some.inj hexec
    obtain ⟨-, -, hfills⟩ := writeAtNoOverwrite_spec h.canonical (carried remote off len) off
    have hget := (hfills.new p hfill).trans (getElem?_carried hfill.1 hfill.2.1)
    have hlen := lt_length_of_eq_byte hp (h.wrote i (by simp [hphase]) p hp)
    exact ⟨i, p, hfills.canonical, by simp [hphase], hp, (hfills.present p).mpr (.inr hfill),
      Nat.lt_of_lt_of_le hlen hfills.grows, by rwa [hget]⟩

theorem Lost.run (hdisj : Disjoint calls) (h : Lost calls s i p)
    (hrun : es.foldlM (Race.exec remote calls) s = some s') : Lost calls s' i p := by
  induction es generalizing s with
  | nil => exact Option.some.inj hrun ▸ h
  | cons e es ih =>
    obtain ⟨s₁, hexec, hrest⟩ := Option.bind_eq_some_iff.mp hrun
    exact ih (h.step hdisj hexec) hrest

/-- By induction on the run: a harmless event keeps `Holds`, and after the first other one a byte is lost for good. -/
theorem Holds.survive_iff (hdisj : Disjoint calls) (h : Holds calls s)
    (hrun : es.foldlM (Race.exec remote calls) s = some s') (hdone : ∀ i, s'.phase i = .done) :
    Survive calls s'.cache ↔ AllHarmless remote calls es s := by
  induction es generalizing s with
  | nil =>
    obtain rfl := Option.some.inj hrun
    refine ⟨fun _ => trivial, fun _ i p hp => h.wrote i ?_ p hp⟩
    rw [hdone i]
    exact Phase.noConfusion
  | cons e es ih =>
    obtain ⟨s₁, hexec, hrest⟩ := Option.bind_eq_some_iff.mp hrun
    rw [AllHarmless]
    by_cases hsafe : e.Harmless remote calls s
    · rw [ih (h.step hdisj hsafe hexec) hrest]
      refine ⟨fun hall => ⟨hsafe, fun s₂ hs₂ => ?_⟩, fun hall => hall.2 s₁ hexec⟩
      obtain rfl := Option.some.inj (hexec.symm.trans hs₂)
      exact hall
    · obtain ⟨i, p, hlost⟩ := exists_lost h hsafe hexec
      obtain ⟨-, -, hp, -, -, hne⟩ := hlost.run hdisj hrest
      exact ⟨fun hsurvive => absurd (hsurvive i p hp) hne, fun hall => absurd hall.1 hsafe⟩

/-- When all calls have finished, every byte they wrote is still there exactly if no download filled in another byte
between the two steps of the call that wrote it. -/
theorem writes_survive_iff (hdisj : Disjoint calls) {c : CacheFile} (hcan : Canonical c.rs) {es : List (Event ι)}
    {s : Race ι} (hrun : es.foldlM (Race.exec remote calls) ⟨c, fun _ => .waiting⟩ = some s)
    (hdone : ∀ i, s.phase i = .done) : Survive calls s.cache ↔ AllHarmless remote calls es ⟨c, fun _ => .waiting⟩ := by
  refine Holds.survive_iff hdisj ⟨hcan, fun i hi => absurd rfl hi, fun i hi => Phase.noConfusion hi⟩ hrun hdone

end

/-- A download that comes after the call has marked its range does no harm. -/
theorem writes_survive_marked_first : ∃ s : Race Unit,
    [.write (), .mark (), .download 0 2].foldlM (Race.exec [1, 1] fun _ => ⟨[9], 0⟩)
      ⟨opened [1, 1], fun _ => .waiting⟩ = some s ∧ Survive (fun _ : Unit => ⟨[9], 0⟩) s.cache := by
  refine ⟨_, rfl, ?_⟩
  refine (@writes_survive_iff Unit _ [1, 1] (fun _ => ⟨[9], 0⟩) (fun i j hij => absurd rfl hij) (opened [1, 1])
    canonical_nil [.write (), .mark (), .download 0 2] _ rfl ?_).mpr ?_
  · intro i
    rfl
  · refine ⟨trivial, fun s₁ h₁ => ⟨trivial, fun s₂ h₂ => ⟨fun i hi => ?_, fun s₃ h₃ => trivial⟩⟩⟩
    obtain rfl := Option.some.inj h₁
    obtain rfl := Option.some.inj h₂
    exact Phase.noConfusion hi

/-- A download between the two steps of a write puts the remote byte back, and the write then marks it as its own. -/
theorem download_overwrites_write : ∃ s : Race Unit,
    [.write (), .download 0 1, .mark ()].foldlM (Race.exec [1, 1] fun _ => ⟨[9], 0⟩)
      ⟨opened [1, 1], fun _ => .waiting⟩ = some s ∧
      s.phase () = .done ∧ s.cache.file[0]? = some 1 ∧ ¬ Survive (fun _ : Unit => ⟨[9], 0⟩) s.cache := by
  refine ⟨_, rfl, rfl, by decide, fun hsurvive => ?_⟩
  exact absurd (hsurvive () 0 (by simp [WriteCall.Has])) (by decide)

end ZClone.Vfs
