import ZClone.Recover.Basic
import Mathlib.Data.List.AList

/-!
# Replaying the journal

The loop at the start of `upload` that folds the chunk events of a journal into the last event of every chunk and
stops at an event that no upload would have written. It accepts exactly the event lists of one shape
(`replay_ok_iff`): the chunks `0, …, k` in order, each with a path from `prepared` along
`prepared → (uploaded →) verified` and one chunk record, all but the last verified.
-/

namespace ZClone.Recover

open List

/-- The loop's state: the last event of every chunk, and the index of the last event. -/
structure Replay where
  states : AList fun _ : Int => ChunkEvent
  previous_index : Int

namespace Replay

def start : Replay := ⟨∅, -1⟩

/-- The state changes a chunk may make. -/
def transitions : List (State × State) :=
  [(.prepared, .uploaded), (.uploaded, .verified), (.prepared, .verified)]

/-- `valid`: the first event of the next chunk, once the chunk before it is verified, or a change of state of a chunk
already there with the same record. -/
def valid (r : Replay) (event : ChunkEvent) : Bool :=
  match r.states.lookup event.chunk.index with
  | none => event.state = .prepared ∧ event.chunk.index = r.previous_index + 1 ∧
      (r.previous_index < 0 ∨ (r.states.lookup r.previous_index).map ChunkEvent.state = some .verified)
  | some previous => event.chunk = previous.chunk ∧ (previous.state, event.state) ∈ transitions

def invalidTransition : Error := .valueError "invalid recovery journal state transition" ""

/-- One event. Events without a chunk fail the lookup of `'chunk'`. -/
def step (r : Replay) : Event → Except Error Replay
  | .chunk event =>
    if r.valid event then .ok ⟨r.states.insert event.chunk.index event, event.chunk.index⟩
    else .error invalidTransition
  | .header _ | .other _ => .error .keyError

end Replay

/-- The replay loop over `journal.events[1:]`. -/
def replay (events : List Event) : Except Error Replay := events.foldlM Replay.step Replay.start

theorem replay_snoc (events : List Event) (e : Event) : replay (events ++ [e]) = (replay events).bind (·.step e) := by
  simp only [replay, foldlM_append, foldlM_cons, foldlM_nil, bind_pure]
  rfl

variable {events : List Event} {r : Replay} {groups : List (Chunk × List State)} {g : Chunk × List State}
  {p : List State}
  {c : Chunk} {s s' : State}

/-- An accepted list is accepted up to its last event, which is valid there. -/
theorem replay_snoc_ok {e : Event} (h : replay (events ++ [e]) = .ok r) :
    ∃ r' c, replay events = .ok r' ∧ e = .chunk c ∧ r'.valid c = true ∧
      r = ⟨r'.states.insert c.chunk.index c, c.chunk.index⟩ := by
  rw [replay_snoc] at h
  cases hr : replay events with
  | error err => rw [hr] at h; cases h
  | ok r' =>
    rw [hr] at h
    cases e with
    | header _ => cases h
    | other _ => cases h
    | chunk c =>
      change (if r'.valid c then Except.ok _ else Except.error _) = _ at h
      split at h
      · exact ⟨r', c, rfl, rfl, ‹_›, (Except.ok.inj h).symm⟩
      · cases h

theorem replay_snoc_of_valid {c : ChunkEvent} (h : replay events = .ok r) (hv : r.valid c = true) :
    replay (events ++ [.chunk c]) = .ok ⟨r.states.insert c.chunk.index c, c.chunk.index⟩ := by
  rw [replay_snoc, h]
  simp [Except.bind, Replay.step, hv]

/-! ## Shape -/

/-- The non-empty paths in `prepared → (uploaded →) verified`. -/
def statePaths : List (List State) :=
  [[.prepared], [.prepared, .uploaded], [.prepared, .verified], [.prepared, .uploaded, .verified]]

/-- The events of a chunk that went along a path with one record. -/
def pathEvents (g : Chunk × List State) : List Event := g.2.map fun s => .chunk ⟨s, g.1⟩

/-- Chunks `0, 1, …` in order, each with a path of states, all but the last ending verified. -/
def WellOrdered (groups : List (Chunk × List State)) : Prop :=
  ∀ i (h : i < groups.length), groups[i].1.index = i ∧ groups[i].2 ∈ statePaths ∧
    (i + 1 < groups.length → groups[i].2.getLast? = some .verified)

/-- The shape of the event lists that are accepted. -/
def Shape (events : List Event) : Prop :=
  ∃ groups : List (Chunk × List State), events = groups.flatMap pathEvents ∧ WellOrdered groups

/-- The replay state that `groups` leads to: the last event of group `i` under `i`. -/
structure Tracks (groups : List (Chunk × List State)) (r : Replay) : Prop where
  previous : r.previous_index = groups.length - 1
  lookup : ∀ i : Nat, r.states.lookup (i : Int) = groups[i]?.bind fun g => g.2.getLast?.map fun s => ⟨s, g.1⟩
  negative : ∀ i : Int, i < 0 → r.states.lookup i = none
  size : r.states.keys.length = groups.length

theorem tracks_start : Tracks [] Replay.start :=
  ⟨rfl, fun _ => rfl, fun _ _ => rfl, rfl⟩

theorem WellOrdered.init (h : WellOrdered (groups ++ [g])) : WellOrdered groups := by
  intro i hi
  have := h i (by simp; omega)
  rw [getElem_append_left hi] at this
  exact ⟨this.1, this.2.1, fun _ => this.2.2 (by simp; omega)⟩

theorem WellOrdered.snoc (h : WellOrdered groups) (hidx : g.1.index = groups.length) (hpath : g.2 ∈ statePaths)
    (hlast : ∀ g' ∈ groups.getLast?, g'.2.getLast? = some .verified) : WellOrdered (groups ++ [g]) := by
  intro i hi
  by_cases hlt : i < groups.length
  · rw [getElem_append_left hlt]
    refine ⟨(h i hlt).1, (h i hlt).2.1, fun _ => ?_⟩
    by_cases hl : i + 1 < groups.length
    · exact (h i hlt).2.2 hl
    · apply hlast
      rw [getLast?_eq_getElem?, show groups.length - 1 = i by omega, getElem?_eq_getElem hlt]
      rfl
  · have hi' : i = groups.length := by simp at hi; omega
    subst hi'
    simp only [getElem_concat_length]
    exact ⟨hidx, hpath, fun hl => by simp at hl⟩

/-- In a well-ordered list, only the last chunk may be unverified. -/
theorem WellOrdered.last (h : WellOrdered (groups ++ [g])) :
    ∀ g' ∈ groups.getLast?, g'.2.getLast? = some .verified := by
  intro g' hg'
  rw [getLast?_eq_getElem?] at hg'
  obtain ⟨hlt, rfl⟩ := List.getElem?_eq_some_iff.1 hg'
  have hlen : (groups ++ [g]).length = groups.length + 1 := by simp
  have := (h (groups.length - 1) (by omega)).2.2 (by omega)
  rwa [getElem_append_left hlt] at this

theorem mem_statePaths : p ∈ statePaths ↔ p = [.prepared] ∨ p = [.prepared, .uploaded] ∨
    p = [.prepared, .verified] ∨ p = [.prepared, .uploaded, .verified] := by
  simp [statePaths]

theorem getLast?_of_statePaths (h : p ∈ statePaths) : ∃ s, p.getLast? = some s := by
  rcases mem_statePaths.1 h with rfl | rfl | rfl | rfl <;> exact ⟨_, rfl⟩

/-- The last chunk is put in place of what was there. -/
theorem Tracks.put {old : List (Chunk × List State)} (ht : Tracks (groups ++ old) r)
    (hidx : c.index = groups.length) (hold : old.length ≤ 1) (hlast : p.getLast? = some s)
    (hsize : (r.states.insert c.index ⟨s, c⟩).keys.length = groups.length + 1) :
    Tracks (groups ++ [(c, p)]) ⟨r.states.insert c.index ⟨s, c⟩, c.index⟩ where
  previous := by simp [hidx]
  lookup i := by
    by_cases hi : i = groups.length
    · rw [show (i : Int) = c.index by rw [hidx, hi], AList.lookup_insert, hi]
      simp [hlast]
    · rw [AList.lookup_insert_ne (by rw [hidx]; exact_mod_cast hi), ht.lookup]
      by_cases hlt : i < groups.length
      · rw [getElem?_append_left hlt, getElem?_append_left hlt]
      · rw [getElem?_eq_none (by rw [length_append]; omega), getElem?_eq_none (by simp; omega)]
  negative i hi := by
    rw [AList.lookup_insert_ne (by omega)]
    exact ht.negative i hi
  size := by
    rw [length_append]
    exact hsize

theorem Tracks.prepare (ht : Tracks groups r) (hidx : c.index = groups.length) :
    Tracks (groups ++ [(c, [.prepared])]) ⟨r.states.insert c.index ⟨.prepared, c⟩, c.index⟩ := by
  have hnone : r.states.lookup c.index = none := by rw [hidx, ht.lookup]; simp
  have hk : c.index ∉ r.states.keys := fun m => AList.lookup_eq_none.1 hnone (AList.mem_keys.1 m)
  have hnil : Tracks (groups ++ []) r := by rwa [append_nil]
  refine hnil.put hidx (Nat.zero_le _) rfl ?_
  rw [AList.keys_insert, length_cons, erase_of_not_mem hk, ht.size]

/-- What the replay state says of a chunk that is there. -/
theorem Tracks.lookup_eq_some (ht : Tracks groups r) {i : Int} {e : ChunkEvent} (h : r.states.lookup i = some e) :
    ∃ k : Nat, ∃ hk : k < groups.length, i = k ∧ e.chunk = groups[k].1 ∧ groups[k].2.getLast? = some e.state := by
  rcases Int.lt_or_le i 0 with hneg | hpos
  · rw [ht.negative i hneg] at h; cases h
  · obtain ⟨k, rfl⟩ := Int.eq_ofNat_of_zero_le hpos
    rw [ht.lookup] at h
    obtain ⟨g, hg, hm⟩ := Option.bind_eq_some_iff.1 h
    obtain ⟨hk, rfl⟩ := List.getElem?_eq_some_iff.1 hg
    obtain ⟨s, hs, rfl⟩ := Option.map_eq_some_iff.1 hm
    exact ⟨k, hk, rfl, rfl, hs⟩

/-- A path that may go on by a transition goes on to a path. -/
theorem statePaths_advance (hp : p ∈ statePaths) (hs : p.getLast? = some s)
    (ht : (s, s') ∈ Replay.transitions) : p ++ [s'] ∈ statePaths := by
  rcases mem_statePaths.1 hp with rfl | rfl | rfl | rfl <;> cases hs <;>
    simp [Replay.transitions] at ht <;> simp [statePaths, ht]

/-- A path that is not verified yet may go on to `verified`. -/
theorem transition_verified (hp : p ∈ statePaths) (hs : p.getLast? = some s)
    (hnv : s ≠ .verified) : (s, .verified) ∈ Replay.transitions := by
  rcases mem_statePaths.1 hp with rfl | rfl | rfl | rfl <;> cases hs <;> simp_all [Replay.transitions]

/-- The first event of the next chunk is valid once all chunks are verified. -/
theorem Tracks.valid_prepare (ht : Tracks groups r)
    (hidx : c.index = groups.length) (hlast : ∀ g ∈ groups.getLast?, g.2.getLast? = some .verified) :
    r.valid ⟨.prepared, c⟩ = true := by
  have hnone : r.states.lookup c.index = none := by rw [hidx, ht.lookup]; simp
  unfold Replay.valid
  simp only [hnone, decide_eq_true_eq, true_and]
  refine ⟨by rw [hidx, ht.previous]; omega, ?_⟩
  rcases eq_nil_or_concat' groups with rfl | ⟨init, g, rfl⟩
  · exact Or.inl (by rw [ht.previous]; simp)
  · have hv := hlast g (by simp)
    have hp : r.previous_index = (init.length : Int) := by rw [ht.previous]; simp
    refine Or.inr ?_
    rw [hp, ht.lookup]
    simp [hv]

section

variable (ht : Tracks (groups ++ [(c, p)]) r) (hidx : c.index = groups.length)

include ht hidx

theorem Tracks.advance (hp : p ≠ []) (s : State) :
    Tracks (groups ++ [(c, p ++ [s])]) ⟨r.states.insert c.index ⟨s, c⟩, c.index⟩ := by
  have hsome : r.states.lookup c.index ≠ none := by
    rw [hidx, ht.lookup]
    simp [getLast?_eq_none_iff, hp]
  have hk : c.index ∈ r.states.keys := AList.mem_keys.2 (by_contra fun hm => hsome (AList.lookup_eq_none.2 hm))
  refine ht.put hidx le_rfl getLast?_concat ?_
  have hsize := ht.size
  rw [length_append, length_singleton] at hsize
  rw [AList.keys_insert, length_cons, length_erase_of_mem hk]
  omega

/-- A change of state of the last chunk is valid along a transition. -/
theorem Tracks.valid_advance (hs : p.getLast? = some s) (htr : (s, s') ∈ Replay.transitions) :
    r.valid ⟨s', c⟩ = true := by
  have hsome : r.states.lookup c.index = some ⟨s, c⟩ := by rw [hidx, ht.lookup]; simp [hs]
  unfold Replay.valid
  simp only [hsome, decide_eq_true_eq, true_and]
  exact htr

end

/-- An accepted list has the shape, and the replay state tracks it. -/
theorem replay_tracks : ∀ {r : Replay}, replay events = .ok r →
    ∃ groups, events = groups.flatMap pathEvents ∧ WellOrdered groups ∧ Tracks groups r := by
  induction events using reverseRecOn with
  | nil =>
    intro r h
    cases h
    exact ⟨[], rfl, fun i hi => by simp at hi, tracks_start⟩
  | append_singleton events e ih =>
    intro r h
    obtain ⟨r', c, hr, rfl, hv, rfl⟩ := replay_snoc_ok h
    obtain ⟨groups, rfl, hw, ht⟩ := ih hr
    unfold Replay.valid at hv
    split at hv
    · -- the first event of a new chunk
      rename_i hnone
      obtain ⟨hs, hidx, hprev⟩ := of_decide_eq_true hv
      rw [ht.previous] at hidx
      have hidx' : c.chunk.index = groups.length := by omega
      have hc : c = ⟨.prepared, c.chunk⟩ := by cases c; simp_all
      refine ⟨groups ++ [(c.chunk, [.prepared])], ?_, hw.snoc hidx' (by simp [statePaths]) ?_, ?_⟩
      · rw [hc]; simp [pathEvents]
      · intro g hg
        rw [getLast?_eq_getElem?] at hg
        obtain ⟨hlt, rfl⟩ := List.getElem?_eq_some_iff.1 hg
        rcases hprev with hneg | hver
        · rw [ht.previous] at hneg; omega
        · obtain ⟨e, he, hse⟩ := Option.map_eq_some_iff.1 hver
          obtain ⟨k, hk, hik, -, hlast⟩ := ht.lookup_eq_some he
          rw [ht.previous] at hik
          have : k = groups.length - 1 := by omega
          subst this
          rw [hlast, hse]
      · have := ht.prepare hidx'
        rwa [← hc] at this
    · -- a change of state, which only the last chunk can make
      rename_i previous hsome
      obtain ⟨hchunk, htr⟩ := of_decide_eq_true hv
      obtain ⟨k, hk, hik, hck, hlast⟩ := ht.lookup_eq_some hsome
      have hnv : previous.state ≠ .verified := by
        intro hver
        rw [hver] at htr
        simp [Replay.transitions] at htr
      have hkl : k + 1 = groups.length := by
        by_contra hne
        have := (hw k hk).2.2 (by omega)
        rw [hlast] at this
        exact hnv (Option.some.inj this)
      obtain ⟨init, g, rfl⟩ := eq_nil_or_concat' groups |>.resolve_left (by rintro rfl; simp at hk)
      have hkinit : k = init.length := by simpa using hkl
      subst hkinit
      simp only [getElem_concat_length] at hck hlast
      obtain ⟨ck, p⟩ := g
      have hce : c.chunk = ck := hchunk.trans hck
      have hpath := (hw init.length hk).2.1
      simp only [getElem_concat_length] at hpath
      have hc : c = ⟨c.state, ck⟩ := by rw [← hce]
      have hidx : ck.index = init.length := by rw [← hce]; exact hik
      refine ⟨init ++ [(ck, p ++ [c.state])], ?_, ?_, ?_⟩
      · rw [hc]; simp [pathEvents]
      · exact hw.init.snoc hidx (statePaths_advance hpath hlast htr) hw.last
      · have hp : p ≠ [] := by rintro rfl; cases hlast
        have := ht.advance hidx hp c.state
        rw [hce]
        rwa [← hc] at this

/-- A list of the shape is accepted. -/
theorem replay_of_groups (hw : WellOrdered groups) :
    ∃ r, replay (groups.flatMap pathEvents) = .ok r ∧ Tracks groups r := by
  induction groups using reverseRecOn with
  | nil => exact ⟨_, rfl, tracks_start⟩
  | append_singleton groups g ih =>
    obtain ⟨r, hr, ht⟩ := ih hw.init
    obtain ⟨c, p⟩ := g
    have hg := hw groups.length (by simp)
    simp only [getElem_concat_length] at hg
    obtain ⟨hidx, hpath, -⟩ := hg
    let Accepted (q : List State) : Prop :=
      ∃ r, replay ((groups ++ [(c, q)]).flatMap pathEvents) = .ok r ∧ Tracks (groups ++ [(c, q)]) r
    have first : Accepted [.prepared] := by
      have hv := ht.valid_prepare hidx hw.last
      exact ⟨_, by simpa [pathEvents] using replay_snoc_of_valid hr hv, ht.prepare hidx⟩
    have next : ∀ (q : List State) (s s' : State), q.getLast? = some s → (s, s') ∈ Replay.transitions →
        Accepted q → Accepted (q ++ [s']) := by
      rintro q s s' hq htr ⟨r, hr, ht⟩
      have hv := ht.valid_advance hidx hq htr
      exact ⟨_, by simpa [pathEvents] using replay_snoc_of_valid hr hv,
        ht.advance hidx (by rintro rfl; cases hq) s'⟩
    have second := next _ _ .uploaded rfl (by decide) first
    rcases mem_statePaths.1 hpath with rfl | rfl | rfl | rfl
    · exact first
    · exact second
    · exact next _ _ .verified rfl (by decide) first
    · exact next _ _ .verified rfl (by decide) second

/-- **The replay loop accepts exactly the event lists of the shape.** -/
theorem replay_ok_iff : (∃ r, replay events = .ok r) ↔ Shape events := by
  constructor
  · rintro ⟨r, h⟩
    obtain ⟨groups, he, hw, -⟩ := replay_tracks h
    exact ⟨groups, he, hw⟩
  · rintro ⟨groups, rfl, hw⟩
    obtain ⟨r, hr, -⟩ := replay_of_groups hw
    exact ⟨r, hr⟩

end ZClone.Recover
