import ZClone.Lib.Int64
import ZClone.Lib.Search
import ZClone.Ranges.Basic

/-!
# `Ranges.Insert` on a slice

The code of `Insert`, as it edits the slice by index and computes with `int64`.

- `Window` is a stretch of less than `2 ^ 63` bytes; within it, or within several such stretches, nothing overflows
  (`exact_within`).
- `insert_eq`: without an overflow, `Slice.insert` is the `insert` of lists.
- `insertAll_canonical` says what any sequence of insertions makes; `insertAll_overflow` needs positions below zero.
-/

namespace ZClone.Ranges.Slice

open List

/-! ## The code -/

/-- `End`. -/
def stop (r : Range) : Int := int64 (r.pos + r.size)

/-- `merge`; the result is the new `dst`. -/
def merge (new dst : Range) : Option Range :=
  if stop new < dst.pos then none
  else
    some ⟨new.pos, if stop dst < stop new then new.size else int64 (dst.size + int64 (dst.pos - new.pos))⟩

/-- `merge(&ranges[i], &ranges[j])`. -/
def mergeAt (rs : List Range) (i j : Nat) : Option (List Range) := do
  let new ← rs[i]?
  let dst ← rs[j]?
  let merged ← merge new dst
  some (rs.set j merged)

/-- The loop of `coalesce` from `j` on; the second result is `endChop`. -/
def mergeLoop : Nat → List Range → Nat → Nat → List Range × Nat
  | 0, rs, _, endChop => (rs, endChop)
  | fuel + 1, rs, j, endChop =>
    if j < rs.length - 1 then
      match mergeAt rs j (j + 1) with
      | none => (rs, endChop)
      | some rs' => mergeLoop fuel rs' (j + 1) (j + 1)
    else (rs, endChop)

/-- What `coalesce` does once the element in front has been looked at. -/
def chop (rs : List Range) (i startChop : Nat) : List Range :=
  let (rs, endChop) := mergeLoop rs.length rs i i
  if startChop < endChop then rs.take startChop ++ rs.drop endChop else rs

def coalesce (rs : List Range) (i : Nat) : List Range :=
  match if 0 < i then mergeAt rs (i - 1) i else none with
  | some rs' => chop rs' i (i - 1)
  | none => chop rs i i

/-- The first index whose range starts no earlier than `r`. -/
def search (rs : List Range) (r : Range) : Nat :=
  Search.search rs.length fun i => (rs[i]?).any (r.pos ≤ ·.pos)

def insert (rs : List Range) (r : Range) : List Range :=
  if r.isEmpty then rs
  else if rs.length = 0 then rs ++ [r]
  else
    let i := search rs r
    match (rs[i]?).bind (merge r) with
    | some merged => coalesce (rs.set i merged) i
    | none => coalesce (rs.take i ++ r :: rs.drop i) i

def insertAll (rs : List Range) : List Range := rs.foldl insert []

/-! ## No overflow -/

/-- Less than `2 ^ 63` bytes with `int64` positions. -/
structure Window where
  lo : Int
  hi : Int
  low : -2 ^ 63 ≤ lo
  high : hi < 2 ^ 63
  width : hi - lo < 2 ^ 63

/-- The positions that are not negative. -/
def positions : Window := ⟨0, 2 ^ 63 - 1, by decide, by decide, by decide⟩

/-- A range with a byte that lies in the window. -/
structure Window.Holds (w : Window) (r : Range) : Prop where
  size : 0 < r.size
  pos : w.lo ≤ r.pos
  stop : r.stop ≤ w.hi

/-- Where the range ends, and how long it is, is an `int64`. -/
structure Fits (r : Range) : Prop where
  low : -2 ^ 63 ≤ r.pos
  size : r.size < 2 ^ 63
  high : r.stop < 2 ^ 63

instance (r : Range) : Decidable (Fits r) :=
  decidable_of_iff (-2 ^ 63 ≤ r.pos ∧ r.size < 2 ^ 63 ∧ r.stop < 2 ^ 63) ⟨fun h => ⟨h.1, h.2.1, h.2.2⟩,
    fun h => ⟨h.1, h.2, h.3⟩⟩

/-- A range with a byte that lies in one of the stretches `es`. -/
def Within (es : List Range) (r : Range) : Prop := 0 < r.size ∧ ∃ e ∈ es, e.pos ≤ r.pos ∧ r.stop ≤ e.stop

variable {r : Range} {rs before : List Range}

theorem Fits.stop_eq (h : Fits r) (hsize : 0 ≤ r.size) : stop r = r.stop := by
  obtain ⟨hlow, -, hhigh⟩ := h
  exact int64_of_lt (by omega) hhigh

/-- A part of what fits. -/
theorem Fits.mono {e : Range} (h : Fits e) (hpos : e.pos ≤ r.pos) (hstop : r.stop ≤ e.stop) : Fits r := by
  obtain ⟨hlow, hsize, hhigh⟩ := h
  simp only [Range.stop] at *
  exact ⟨by omega, by omega, by simp only [Range.stop]; omega⟩

/-- Ranges that `merge` computes without an overflow, and that it makes others of. -/
structure Exact (P : Range → Prop) : Prop where
  merge_eq : ∀ {new dst : Range}, P new → P dst → merge new dst = Ranges.merge new dst
  merge : ∀ {new dst merged : Range}, P new → P dst → Ranges.merge new dst = some merged → P merged

section

variable {es : List Range} (hfits : ∀ e ∈ es, Fits e) (hgaps : es.Pairwise fun a b => a.stop < b.pos)

include hgaps in
/-- Two ranges lie in one stretch or in two with a gap between them. -/
theorem Within.cases {a b : Range} (ha : Within es a) (hb : Within es b) :
    (∃ e ∈ es, (e.pos ≤ a.pos ∧ a.stop ≤ e.stop) ∧ e.pos ≤ b.pos ∧ b.stop ≤ e.stop) ∨ a.stop < b.pos ∨
      b.stop < a.pos := by
  obtain ⟨-, e, he, hpos, hstop⟩ := ha
  obtain ⟨-, e', he', hpos', hstop'⟩ := hb
  rcases eq_or_apart hgaps he he' with rfl | hlt | hlt
  · exact .inl ⟨e, he, ⟨hpos, hstop⟩, hpos', hstop'⟩
  · exact .inr (.inl (by omega))
  · exact .inr (.inr (by omega))

include hfits in
theorem Within.fits (h : Within es r) : Fits r := by
  obtain ⟨-, e, he, hpos, hstop⟩ := h
  exact (hfits e he).mono hpos hstop

include hfits hgaps in
/-- Ranges that touch lie in the same stretch, and so does what they merge to. -/
theorem exact_within : Exact (Within es) := by
  refine ⟨fun {new dst} hnew hdst => ?_, fun {new dst merged} hnew hdst h => ?_⟩
  · rw [merge, Ranges.merge, (hnew.fits hfits).stop_eq hnew.1.le, (hdst.fits hfits).stop_eq hdst.1.le]
    by_cases hgap : new.stop < dst.pos
    · rw [if_pos hgap, if_pos hgap]
    · rw [if_neg hgap, if_neg hgap]
      by_cases hlonger : dst.stop < new.stop
      · rw [if_pos hlonger, if_pos hlonger]
      · rw [if_neg hlonger, if_neg hlonger]
        have hnewSize := hnew.1
        rcases hnew.cases hgaps hdst with ⟨e, he, hin, hin'⟩ | hlt | hlt
        · obtain ⟨hlow, hsize, hhigh⟩ := hfits e he
          simp only [Range.stop] at *
          have hdiff : int64 (dst.pos - new.pos) = dst.pos - new.pos := int64_of_lt (by omega) (by omega)
          rw [hdiff, int64_of_lt (by omega) (by omega)]
        · exact absurd hlt hgap
        · simp only [Range.stop] at *
          omega
  · have hnewSize := hnew.1
    rw [Ranges.merge] at h
    split_ifs at h with hgap hlonger
    · obtain rfl := Option.some.inj h
      exact hnew
    · obtain rfl := Option.some.inj h
      rcases hnew.cases hgaps hdst with ⟨e, he, hin, hin'⟩ | hlt | hlt
      · simp only [Range.stop] at *
        exact ⟨by simp only; omega, e, he, by simp only [Range.stop]; omega⟩
      · exact absurd hlt hgap
      · simp only [Range.stop] at *
        omega

end

/-- A window is one stretch. -/
theorem Window.holds_eq (w : Window) : w.Holds = Within [⟨w.lo, w.hi - w.lo⟩] := by
  funext r
  have hstop : (⟨w.lo, w.hi - w.lo⟩ : Range).stop = w.hi := by simp only [Range.stop]; omega
  simp only [Within, mem_singleton, exists_eq_left, hstop]
  exact propext ⟨fun h => ⟨h.size, h.pos, h.stop⟩, fun h => ⟨h.1, h.2.1, h.2.2⟩⟩

theorem Window.exact (w : Window) : Exact w.Holds := by
  rw [w.holds_eq]
  refine exact_within (fun e he => ?_) (pairwise_singleton _ _)
  obtain rfl := mem_singleton.mp he
  exact ⟨w.low, w.width, by simp only [Range.stop]; have := w.high; omega⟩

/-! ## The slice and the list -/

theorem mergeAt_append (before : List Range) (new dst : Range) (after : List Range) :
    mergeAt (before ++ new :: dst :: after) before.length (before.length + 1) =
      (merge new dst).map fun merged => before ++ new :: merged :: after := by
  cases hmerge : merge new dst with
  | none | some merged => simp [mergeAt, hmerge]

theorem search_append {after : List Range} (hbefore : ∀ x ∈ before, x.pos < r.pos)
    (hafter : ∀ x ∈ after, r.pos ≤ x.pos) : search (before ++ after) r = before.length := by
  refine Search.search_eq ?_ ?_ ?_
  · rw [length_append]
    exact Nat.le_add_right _ _
  · intro h hlt
    rw [getElem?_append_left hlt, getElem?_eq_getElem hlt]
    simpa using hbefore _ (getElem_mem hlt)
  · intro h hle hlt
    have hlt' : h - before.length < after.length := by
      rw [length_append] at hlt
      omega
    rw [getElem?_append_right hle, getElem?_eq_getElem hlt']
    simpa using hafter _ (getElem_mem hlt')

section

variable {P : Range → Prop} (hP : Exact P)

include hP

theorem holds_absorb : ∀ {rs : List Range} {r : Range}, P r → (∀ x ∈ rs, P x) → ∀ x ∈ absorb r rs, P x
  | [], r, hr, _ => by simpa [absorb] using hr
  | next :: rest, r, hr, hrs => by
    obtain ⟨hnext, hrest⟩ := forall_mem_cons.mp hrs
    cases hmerge : Ranges.merge r next with rw [absorb, hmerge]
    | none =>
      exact forall_mem_cons.mpr ⟨hr, hrs⟩
    | some merged =>
      exact holds_absorb (hP.merge hr hnext hmerge) hrest

/-- By induction on the ranges behind: what is in front stays, and from `endChop` on is what the list has. -/
theorem mergeLoop_spec : ∀ {after before : List Range} {r : Range} {fuel : Nat}, after.length ≤ fuel → P r →
    (∀ x ∈ after, P x) →
      ∃ rs endChop, mergeLoop fuel (before ++ r :: after) before.length before.length = (rs, endChop) ∧
      before.length ≤ endChop ∧ rs.take before.length = before ∧ rs.drop endChop = absorb r after
  | [], before, r, fuel, _, _, _ => by
    refine ⟨before ++ [r], before.length, ?_, le_rfl, take_left, drop_left⟩
    cases fuel with
    | zero => rfl
    | succ fuel => simp [mergeLoop]
  | next :: rest, before, r, fuel + 1, hfuel, hr, hafter => by
    obtain ⟨hnext, hrest⟩ := forall_mem_cons.mp hafter
    have hlt : before.length < (before ++ r :: next :: rest).length - 1 := by simp
    rw [mergeLoop, if_pos hlt, mergeAt_append, hP.merge_eq hr hnext, absorb]
    cases hmerge : Ranges.merge r next with
    | none => exact ⟨_, _, rfl, le_rfl, take_left, drop_left⟩
    | some merged =>
      obtain ⟨rs, endChop, hloop, hle, htake, hdrop⟩ :=
        @mergeLoop_spec rest (before ++ [r]) merged fuel (Nat.le_of_succ_le_succ hfuel) (hP.merge hr hnext hmerge) hrest
      rw [append_assoc, length_append, length_singleton] at hloop
      rw [length_append, length_singleton] at hle htake
      refine ⟨rs, endChop, hloop, Nat.le_of_succ_le hle, ?_, hdrop⟩
      have hshorter : rs.take before.length = (rs.take (before.length + 1)).take before.length := by
        rw [take_take, Nat.min_eq_left (Nat.le_succ _)]
      rw [hshorter, htake, take_left]

theorem chop_eq {before after : List Range} {r : Range} {startChop : Nat} (hstart : startChop ≤ before.length)
    (hr : P r) (hafter : ∀ x ∈ after, P x) :
    chop (before ++ r :: after) before.length startChop = before.take startChop ++ absorb r after := by
  obtain ⟨rs, endChop, hloop, hle, htake, hdrop⟩ :=
    @mergeLoop_spec P hP after before r (before ++ r :: after).length (by simp; omega) hr hafter
  have hfront : rs.take startChop = before.take startChop := by
    rw [← htake, take_take, Nat.min_eq_left hstart]
  rw [chop, hloop]
  by_cases hchop : startChop < endChop
  · simp only [hchop, if_true, hfront, hdrop]
  · -- Nothing was merged: the front and the rest are the whole slice.
    have hend : startChop = endChop := by omega
    simp only [hchop, if_false]
    rw [← hfront, ← hdrop, hend, take_append_drop]

section

variable {after : List Range} (hbefore : ∀ x ∈ before, P x) (hr : P r) (hafter : ∀ x ∈ after, P x)

include hbefore hr hafter

theorem coalesce_eq : coalesce (before ++ r :: after) before.length = Ranges.coalesce before r after := by
  rcases eq_nil_or_concat' before with rfl | ⟨init, last, rfl⟩
  · exact @chop_eq P hP [] after r 0 (Nat.le_refl 0) hr hafter
  · have hlast : P last := hbefore last (by simp)
    have hmergeAt := mergeAt_append init last r after
    rw [coalesce, Ranges.coalesce, append_assoc, singleton_append, length_append, length_singleton,
      if_pos (Nat.succ_pos _), Nat.add_sub_cancel, hmergeAt, hP.merge_eq hlast hr]
    simp only [getLast?_append, getLast?_singleton, Option.some_or, Option.bind_some, dropLast_concat]
    cases hmerge : Ranges.merge last r with
    | none =>
      have hchop := @chop_eq P hP (init ++ [last]) after r (init ++ [last]).length le_rfl hr hafter
      rw [take_length] at hchop
      simpa using hchop
    | some merged =>
      have hchop := @chop_eq P hP (init ++ [last]) after merged init.length (by simp) (hP.merge hlast hr hmerge) hafter
      simpa using hchop

theorem holds_coalesce : ∀ x ∈ Ranges.coalesce before r after, P x := by
  rw [Ranges.coalesce]
  cases hmerge : before.getLast?.bind (Ranges.merge · r) with
  | none => exact forall_mem_append.mpr ⟨hbefore, holds_absorb hP hr hafter⟩
  | some merged =>
    obtain ⟨last, hlast, hmerged⟩ := Option.bind_eq_some_iff.mp hmerge
    have hlast := hbefore last (mem_of_getLast? hlast)
    refine forall_mem_append.mpr ⟨fun x hx => hbefore x (dropLast_subset before hx), ?_⟩
    exact holds_absorb hP (hP.merge hlast hr hmerged) hafter

end

/-- The slice is edited to what the list is. -/
theorem insert_eq (hcan : Canonical rs) (hrs : ∀ x ∈ rs, P x) (hr : 0 < r.size → P r) :
    insert rs r = Ranges.insert rs r := by
  cases hempty : r.isEmpty with
  | true => rw [insert, Ranges.insert, if_pos hempty, if_pos hempty]
  | false =>
    have hr := hr (not_isEmpty.mp hempty)
    have hle : ∀ x ∈ above rs r, r.pos ≤ x.pos := fun x => pos_of_mem_above hcan
    have hlt : ∀ x ∈ below rs r, x.pos < r.pos := fun x => pos_of_mem_below
    have hsplit := below_append_above rs r
    obtain ⟨hbelow, habove⟩ := forall_mem_append.mp (hsplit.symm ▸ hrs)
    rw [insert, Ranges.insert, hempty]
    simp only [Bool.false_eq_true, if_false]
    generalize below rs r = before at *
    generalize above rs r = after at *
    obtain rfl := hsplit
    rw [search_append hlt hle]
    cases after with
    | nil =>
      by_cases hnil : before = []
      · subst hnil
        rfl
      · rw [if_neg (by simpa using hnil)]
        simpa using coalesce_eq hP hbelow hr (forall_mem_nil _)
    | cons found after =>
      obtain ⟨hfound, hafter⟩ := forall_mem_cons.mp habove
      rw [if_neg (by simp), getElem?_append_right le_rfl, Nat.sub_self, getElem?_cons_zero, Option.bind_some,
        hP.merge_eq hr hfound]
      cases hmerge : Ranges.merge r found with
      | none => simpa [hmerge] using coalesce_eq hP hbelow hr habove
      | some merged => simpa [hmerge] using coalesce_eq hP hbelow (hP.merge hr hfound hmerge) hafter

theorem holds_insert (hrs : ∀ x ∈ rs, P x) (hr : 0 < r.size → P r) : ∀ x ∈ Ranges.insert rs r, P x := by
  cases hempty : r.isEmpty with
  | true => rwa [Ranges.insert, if_pos hempty]
  | false =>
    have hr := hr (not_isEmpty.mp hempty)
    obtain ⟨hbelow, habove⟩ := forall_mem_append.mp ((below_append_above rs r).symm ▸ hrs)
    rw [Ranges.insert, hempty]
    cases hcons : above rs r with
    | nil => exact holds_coalesce hP hbelow hr fun _ hx => absurd hx not_mem_nil
    | cons found after =>
      rw [hcons] at habove
      obtain ⟨hfound, hafter⟩ := forall_mem_cons.mp habove
      cases hmerge : Ranges.merge r found with
      | none => simpa [hmerge] using holds_coalesce hP hbelow hr habove
      | some merged => simpa [hmerge] using holds_coalesce hP hbelow (hP.merge hr hfound hmerge) hafter

/-! ## Sequences of insertions -/

/-- By induction on the insertions, from any slice that is canonical. -/
theorem foldl_insert_eq : ∀ {rs start : List Range}, Canonical start → (∀ x ∈ start, P x) →
    (∀ r ∈ rs, 0 < r.size → P r) → rs.foldl insert start = rs.foldl Ranges.insert start
  | [], start, _, _, _ => rfl
  | r :: rs, start, hcan, hstart, hrs => by
    obtain ⟨hr, hrs⟩ := forall_mem_cons.mp hrs
    rw [foldl_cons, foldl_cons, insert_eq hP hcan hstart hr]
    exact foldl_insert_eq (canonical_insert hcan r) (holds_insert hP hstart hr) hrs

end

/-- After any insertions within a window the slice is strictly sorted, has no empty range and a gap between any two, and
it covers the bytes of the ranges inserted. -/
theorem insertAll_canonical (w : Window) (rs : List Range) (h : ∀ r ∈ rs, 0 < r.size → w.lo ≤ r.pos ∧ r.stop ≤ w.hi) :
    (insertAll rs).Pairwise (fun a b => a.pos < b.pos) ∧ (∀ r ∈ insertAll rs, 0 < r.size) ∧
      (insertAll rs).Pairwise (fun a b => a.stop + 1 ≤ b.pos) ∧ ∀ p, Covers (insertAll rs) p ↔ ∃ r ∈ rs, r.Has p := by
  have hholds : ∀ r ∈ rs, 0 < r.size → w.Holds r := fun r hr hsize => ⟨hsize, (h r hr hsize).1, (h r hr hsize).2⟩
  obtain ⟨hcan, hcovers⟩ := foldl_insert_spec rs canonical_nil
  rw [← foldl_insert_eq w.exact canonical_nil nofun hholds] at hcan hcovers
  refine ⟨?_, hcan.pos, hcan.gaps, fun p => ?_⟩
  · refine hcan.gaps.imp_of_mem fun {a b} ha _ hgap => ?_
    have hsize := hcan.pos a ha
    simp only [Range.stop] at hgap
    omega
  · rw [insertAll, hcovers]
    simp [covers_nil]

/-- Three ranges of which the last joins the others. -/
theorem insertAll_canonical_joined :
    insertAll [⟨0, 1⟩, ⟨2, 1⟩, ⟨1, 1⟩] = [⟨0, 3⟩] ∧ ∀ p, Covers (insertAll [⟨0, 1⟩, ⟨2, 1⟩, ⟨1, 1⟩]) p ↔
      ∃ r ∈ ([⟨0, 1⟩, ⟨2, 1⟩, ⟨1, 1⟩] : List Range), r.Has p :=
  ⟨by decide, (insertAll_canonical positions [⟨0, 1⟩, ⟨2, 1⟩, ⟨1, 1⟩] (by decide)).2.2.2⟩

/-- Both ends are far from an overflow, but the size of the two ranges together is none that an `int64` has. -/
theorem insertAll_overflow : (∀ r ∈ ([⟨-2 ^ 63, 2 ^ 63 - 1⟩, ⟨-1, 2 ^ 63 - 1⟩] : List Range), r.stop < 2 ^ 63) ∧
      insertAll [⟨-2 ^ 63, 2 ^ 63 - 1⟩, ⟨-1, 2 ^ 63 - 1⟩] = [⟨-2 ^ 63, -2⟩] := by
  decide

end ZClone.Ranges.Slice
