import Mathlib.Data.List.Chain
import ZClone.Ranges.Basic

/-!
# Looking up ranges

- `find_spec`: the piece found starts where the range does, and either all of its bytes are covered or none is.
- `findAll_spec`: the pieces found run through the range without gaps, present and absent by turns
  (`isChain_findAllLoop`).
- `intersection` covers what is covered in the range and is canonical again (`intersection_spec`).
-/

namespace ZClone.Ranges

open List
open Range (stop)

/-! ## One piece -/

theorem intersection_overlap {a b : Range} (h : a.pos < b.stop ∧ b.pos < a.stop) :
    a.intersection b = ⟨max a.pos b.pos, min a.stop b.stop - max a.pos b.pos⟩ := by
  rw [Range.intersection, if_pos]
  omega

theorem intersection_isEmpty_iff {a b : Range} (ha : 0 < a.size) (hb : 0 < b.size) :
    (a.intersection b).isEmpty = true ↔ ¬ (a.pos < b.stop ∧ b.pos < a.stop) := by
  have hastop : a.stop = a.pos + a.size := rfl
  have hbstop : b.stop = b.pos + b.size := rfl
  by_cases h : a.pos < b.stop ∧ b.pos < a.stop
  · rw [intersection_overlap h]
    simp only [Range.isEmpty, decide_eq_true_eq]
    omega
  · rw [Range.intersection, if_neg (by omega)]
    simpa [Range.isEmpty] using h

theorem intersection_of_overlap {a b : Range} (ha : 0 < a.size) (hb : 0 < b.size)
    (h : (a.intersection b).isEmpty = false) :
    (a.intersection b).pos = max a.pos b.pos ∧ (a.intersection b).stop = min a.stop b.stop := by
  have hover : a.pos < b.stop ∧ b.pos < a.stop := by
    by_contra hnot
    simp [(intersection_isEmpty_iff ha hb).mpr hnot] at h
  rw [intersection_overlap hover]
  refine ⟨rfl, ?_⟩
  simp only [stop]
  omega

/-- What `find` promises about a range that is not empty. -/
structure Found (rs : List Range) (r curr next : Range) (present : Bool) : Prop where
  pos : curr.pos = r.pos
  size : 0 < curr.size
  stop_le : curr.stop ≤ r.stop
  /-- The rest begins behind the piece, or there is none. -/
  rest : (next.isEmpty = true ∧ curr.stop = r.stop) ∨ (next.pos = curr.stop ∧ next.stop = r.stop)
  covers : ∀ p, curr.Has p → (Covers rs p ↔ present = true)

variable {rs : List Range} {r : Range} {fs : List FoundRange} {x : Range × Range × Bool} {p a b : Int}

/-- The pieces that `find` returns: the part of a range that starts no later, what is in front of the first range
found, or all of it. -/
inductive Piece (rs : List Range) (r : Range) : Range × Range × Bool → Prop
  | cut (found : Range) : found ∈ rs → found.pos ≤ r.pos → (found.intersection r).isEmpty = false →
      Piece rs r (Ranges.cut r found)
  | ahead (found : Range) : found ∈ rs → r.pos < (found.intersection r).pos → (found.intersection r).isEmpty = false →
      (∀ x ∈ rs, x.stop ≤ r.pos ∨ found.pos ≤ x.pos) →
      Piece rs r (⟨r.pos, (found.intersection r).pos - r.pos⟩,
        ⟨(found.intersection r).pos, r.size - ((found.intersection r).pos - r.pos)⟩, false)
  | absent : (∀ x ∈ rs, x.stop ≤ r.pos ∨ r.stop ≤ x.pos) → Piece rs r (r, ⟨0, 0⟩, false)

/-- Bytes in front of all ranges but those that end before them are not covered. -/
theorem not_covers_of_gap (hnone : ∀ x ∈ rs, x.stop ≤ a ∨ b ≤ x.pos) (ha : a ≤ p) (hb : p < b) : ¬ Covers rs p := by
  rintro ⟨x, hx, hle, hlt⟩
  have := hnone x hx
  omega

theorem Piece.found (hcan : Canonical rs) (hr : 0 < r.size) (h : Piece rs r x) : Found rs r x.1 x.2.1 x.2.2 := by
  cases h with
  | cut found hmem hpos hover =>
    obtain ⟨hp, hs⟩ := intersection_of_overlap (hcan.pos found hmem) hr hover
    have hsize := not_isEmpty.mp hover
    simp only [Ranges.cut]
    refine ⟨by omega, hsize, by omega, .inr ⟨rfl, ?_⟩, fun p hp' => iff_of_true ⟨found, hmem, ?_⟩ rfl⟩
    · simp only [stop] at *
      omega
    · simp only [Range.Has] at hp' ⊢
      omega
  | ahead found hmem hpos hover hnone =>
    obtain ⟨hp, hs⟩ := intersection_of_overlap (hcan.pos found hmem) hr hover
    have hsize := not_isEmpty.mp hover
    refine ⟨rfl, ?_, ?_, .inr ?_, fun p hp' => iff_of_false (not_covers_of_gap hnone hp'.1 ?_) Bool.false_ne_true⟩
    all_goals simp only [Range.Has, stop] at *
    all_goals omega
  | absent hnone =>
    exact ⟨rfl, hr, le_refl _, .inl ⟨rfl, rfl⟩, fun p hp =>
      iff_of_false (not_covers_of_gap hnone hp.1 hp.2) Bool.false_ne_true⟩

section

variable (hcan : Canonical rs) (hr : 0 < r.size)

include hcan hr

/-- Where a piece ends before the range does, what is covered begins or ends. -/
theorem Piece.boundary (h : Piece rs r x) (hmore : x.1.stop < r.stop) : Covers rs x.1.stop ↔ x.2.2 = false := by
  cases h with
  | cut found hmem hpos hover =>
    simp only [Ranges.cut] at hmore ⊢
    have hstop := (intersection_of_overlap (hcan.pos found hmem) hr hover).2
    have hend : (found.intersection r).stop = found.stop := by omega
    simpa [hend] using hcan.not_covers_stop hmem
  | ahead found hmem hpos hover hnone =>
    have hp := (intersection_of_overlap (hcan.pos found hmem) hr hover).1
    have hsize := hcan.pos found hmem
    refine iff_of_true ⟨found, hmem, ?_⟩ rfl
    simp only [Range.Has, stop]
    omega
  | absent hnone => exact absurd hmore (lt_irrefl _)

/-- What starts in front of the range and is not the last to do so ends in front of it. -/
theorem stop_le_of_mem_below
    (hlast : ∀ prev, (below rs r).getLast? = some prev → (prev.intersection r).isEmpty = true) :
    ∀ x ∈ below rs r, x.stop ≤ r.pos := by
  intro x hx
  obtain ⟨hbelow, -, -⟩ := canonical_append.mp ((below_append_above rs r).symm ▸ hcan)
  obtain ⟨init, last, hsplit⟩ := (eq_nil_or_concat' (below rs r)).resolve_left (ne_nil_of_mem hx)
  have hlastmem : last ∈ below rs r := by simp [hsplit]
  have hlastpos := pos_of_mem_below hlastmem
  have hlaststop : last.stop ≤ r.pos := by
    have hempty := hlast last (by simp [hsplit])
    rw [intersection_isEmpty_iff (hbelow.pos last hlastmem) hr] at hempty
    simp only [stop] at *
    omega
  rw [hsplit] at hbelow hx
  rcases mem_append.mp hx with hx | hx
  · have hgap := (canonical_append.mp hbelow).2.2 x hx last (by simp)
    omega
  · exact mem_singleton.mp hx ▸ hlaststop

theorem findAhead_piece (hbelow : ∀ x ∈ below rs r, x.stop ≤ r.pos) : Piece rs r (findAhead rs r) := by
  have hmem : ∀ x ∈ rs, x.stop ≤ r.pos ∨ x ∈ above rs r := by
    intro x hx
    rw [← below_append_above rs r, mem_append] at hx
    exact hx.imp_left (hbelow x)
  rw [findAhead]
  cases habove : above rs r with
  | nil => exact .absent fun x hx => (hmem x hx).imp_right fun h => by simp [habove] at h
  | cons found after =>
    have hfoundmem : found ∈ rs := by
      rw [← below_append_above rs r, habove]
      simp
    have hfound := hcan.pos found hfoundmem
    -- no range starts between the one looked for and the one found
    have hnone : ∀ x ∈ rs, x.stop ≤ r.pos ∨ found.pos ≤ x.pos := by
      intro x hx
      refine (hmem x hx).imp_right fun hx => ?_
      obtain ⟨-, hcan', -⟩ := canonical_append.mp ((below_append_above rs r).symm ▸ hcan)
      rw [habove] at hx hcan'
      rcases mem_cons.mp hx with rfl | hx
      · exact le_refl _
      · have := (canonical_cons.mp hcan').2.1 x hx
        simp only [stop] at this
        omega
    simp only [head?_cons]
    split_ifs with hover hlt
    · have hpos : r.pos ≤ found.pos := pos_of_mem_above hcan (by rw [habove]; exact mem_cons_self)
      have hfar := (intersection_isEmpty_iff hfound hr).mp hover
      refine .absent fun x hx => (hnone x hx).imp_right fun h => ?_
      simp only [stop] at *
      omega
    · exact .ahead found hfoundmem hlt (eq_false_of_ne_true hover) hnone
    · have hover := eq_false_of_ne_true hover
      have hp := (intersection_of_overlap hfound hr hover).1
      exact .cut found hfoundmem (by omega) hover

theorem find_piece : Piece rs r (find rs r) := by
  rw [find, not_isEmpty.mpr hr]
  simp only [Bool.false_eq_true, ↓reduceIte]
  cases hlast : (below rs r).getLast? with
  | none =>
    have hnil : below rs r = [] := getLast?_eq_none_iff.mp hlast
    exact findAhead_piece hcan hr (by simp [hnil])
  | some prev =>
    have hprev : prev ∈ below rs r := mem_of_getLast? hlast
    dsimp only
    split_ifs with hover
    · refine findAhead_piece hcan hr (stop_le_of_mem_below hcan hr fun x hx => ?_)
      exact Option.some.inj (hlast.symm.trans hx) ▸ hover
    · exact .cut prev (takeWhile_subset _ hprev) (pos_of_mem_below hprev).le (eq_false_of_ne_true hover)

theorem find_spec : Found rs r (find rs r).1 (find rs r).2.1 (find rs r).2.2 := (find_piece hcan hr).found hcan hr

theorem find_boundary (hmore : (find rs r).1.stop < r.stop) : Covers rs (find rs r).1.stop ↔ (find rs r).2.2 = false :=
  (find_piece hcan hr).boundary hcan hr hmore

end

/-- What is left to look for is shorter. -/
theorem Found.toNat_lt {curr next : Range} {present : Bool} (h : Found rs r curr next present) :
    next.size.toNat < r.size.toNat := by
  obtain ⟨hpos, hsize, hstop, hrest, -⟩ := h
  simp only [Range.isEmpty, decide_eq_true_eq, stop] at *
  omega

/-! ## All pieces -/

theorem findAllLoop_of_isEmpty (hr : r.isEmpty = true) : ∀ fuel, findAllLoop rs fuel r = []
  | 0 => rfl
  | fuel + 1 => by rw [findAllLoop, if_pos hr]

/-- The pieces run from `a` to `b`, each all present or all absent. -/
def Tiling (rs : List Range) : Int → Int → List FoundRange → Prop
  | a, b, [] => a = b
  | a, b, f :: fs =>
    f.r.pos = a ∧ 0 < f.r.size ∧ f.r.stop ≤ b ∧ (∀ p, f.r.Has p → (Covers rs p ↔ f.present = true)) ∧
      Tiling rs f.r.stop b fs

theorem tiling_findAllLoop (hcan : Canonical rs) : ∀ {fuel : Nat} {r : Range}, 0 ≤ r.size →
    r.size.toNat ≤ fuel → Tiling rs r.pos r.stop (findAllLoop rs fuel r)
  | 0, r, hr, hfuel => by
    simp only [findAllLoop, Tiling, stop]
    omega
  | fuel + 1, r, hr, hfuel => by
    rw [findAllLoop]
    cases hempty : r.isEmpty with
    | true =>
      simp only [Range.isEmpty, decide_eq_true_eq] at hempty
      simp only [↓reduceIte, Tiling, stop]
      omega
    | false =>
      have hfound := find_spec hcan (not_isEmpty.mp hempty)
      refine ⟨hfound.pos, hfound.size, hfound.stop_le, hfound.covers, ?_⟩
      have hsize := hfound.size
      have hpos := hfound.pos
      have hle := hfound.stop_le
      rcases hfound.rest with ⟨hnext, hstop⟩ | ⟨hnext, hstop⟩
      · rw [findAllLoop_of_isEmpty hnext, Tiling, hstop]
      · rw [← hnext, ← hstop]
        refine tiling_findAllLoop hcan ?_ ?_
        · simp only [stop] at *
          omega
        · simp only [stop] at *
          omega

/-- The pieces of `findAll` run through the range. -/
theorem findAll_spec (hcan : Canonical rs) (hr : 0 ≤ r.size) :
    Tiling rs r.pos r.stop (findAll rs r) := tiling_findAllLoop hcan hr (le_refl _)

theorem findAll_of_nonpos (rs : List Range) (hr : r.size ≤ 0) : findAll rs r = [] := by
  rw [findAll, Int.toNat_of_nonpos hr]
  rfl

theorem size_of_mem_findAll {f : FoundRange} (hf : f ∈ findAll rs r) : 0 < r.size := by
  by_contra hle
  rw [findAll_of_nonpos rs (not_lt.mp hle)] at hf
  cases hf

/-- Turns beyond the size of the range change nothing. -/
theorem findAllLoop_eq (hcan : Canonical rs) : ∀ {n m : Nat} {r : Range}, r.size.toNat ≤ n →
    r.size.toNat ≤ m → findAllLoop rs n r = findAllLoop rs m r
  | n, m, r, hn, hm => by
    cases hempty : r.isEmpty with
    | true => rw [findAllLoop_of_isEmpty hempty, findAllLoop_of_isEmpty hempty]
    | false =>
      have hlt := (find_spec hcan (not_isEmpty.mp hempty)).toNat_lt
      obtain ⟨n, rfl⟩ := Nat.exists_eq_add_one_of_ne_zero (show n ≠ 0 by omega)
      obtain ⟨m, rfl⟩ := Nat.exists_eq_add_one_of_ne_zero (show m ≠ 0 by omega)
      rw [findAllLoop, findAllLoop, findAllLoop_eq hcan (n := n) (m := m) (by omega) (by omega)]

/-- Each piece begins where the one in front ends, and if that is present it is absent, and the other way round. -/
theorem isChain_findAllLoop (hcan : Canonical rs) : ∀ {fuel : Nat} {r : Range},
    (findAllLoop rs fuel r).IsChain fun f g => f.r.stop = g.r.pos ∧ f.present ≠ g.present
  | 0, _ => .nil
  | fuel + 1, r => by
    rw [findAllLoop]
    cases hempty : r.isEmpty with
    | true => exact .nil
    | false =>
      have hr := not_isEmpty.mp hempty
      have hfound := find_spec hcan hr
      have hchain := @isChain_findAllLoop hcan fuel (find rs r).2.1
      cases fuel with
      | zero => exact .singleton _
      | succ fuel =>
        rw [findAllLoop] at hchain ⊢
        cases hlast : (find rs r).2.1.isEmpty with
        | true => exact .singleton _
        | false =>
          simp only [hlast, Bool.false_eq_true, if_false] at hchain ⊢
          have hnext := not_isEmpty.mp hlast
          have hfound' := find_spec hcan hnext
          obtain ⟨hpos, hstop⟩ := hfound.rest.resolve_left fun h => by simp [hlast] at h
          refine .cons_cons ⟨by rw [hfound'.pos, hpos], fun hsame => ?_⟩ hchain
          -- The byte between the two is covered as both say.
          have hmore : (find rs r).1.stop < r.stop := by
            simp only [stop] at *
            omega
          have hhas : (find rs (find rs r).2.1).1.Has (find rs r).1.stop := by
            have hsize := hfound'.size
            have hpos' := hfound'.pos
            simp only [Range.Has, stop] at *
            omega
          have hcontra := (find_boundary hcan hr hmore).symm.trans (hfound'.covers _ hhas)
          rw [← show (find rs r).2.2 = (find rs (find rs r).2.1).2.2 from hsame] at hcontra
          cases hpres : (find rs r).2.2 with
          | true | false => simp [hpres] at hcontra

theorem Tiling.of_mem : ∀ {fs : List FoundRange} {a b : Int}, Tiling rs a b fs → ∀ f ∈ fs,
    a ≤ f.r.pos ∧ 0 < f.r.size ∧ f.r.stop ≤ b ∧ ∀ p, f.r.Has p → (Covers rs p ↔ f.present = true)
  | f :: fs, a, b, ⟨hpos, hsize, hstop, hcovers, htail⟩, g, hg => by
    rcases mem_cons.mp hg with rfl | hg
    · exact ⟨hpos.ge, hsize, hstop, hcovers⟩
    · obtain ⟨hpos', hrest⟩ := htail.of_mem g hg
      refine ⟨?_, hrest⟩
      simp only [stop] at *
      omega

theorem Tiling.head (h : Tiling rs a b fs) (hlt : a < b) : fs.head?.map (·.r.pos) = some a := by
  cases fs with
  | nil => exact absurd h hlt.ne
  | cons f fs => exact congrArg some h.1

theorem Tiling.last :
    ∀ {fs : List FoundRange} {a b : Int}, Tiling rs a b fs → a < b → fs.getLast?.map (·.r.stop) = some b
  | [], _, _, h, hlt => absurd h hlt.ne
  | [f], _, _, ⟨_, _, _, _, htail⟩, _ => congrArg some htail
  | f :: g :: fs, a, b, ⟨_, _, _, _, htail⟩, _ => by
    have hlt : f.r.stop < b := by
      obtain ⟨hpos, hsize, hstop, -⟩ := htail
      simp only [stop] at *
      omega
    rw [getLast?_cons_cons]
    exact htail.last hlt

/-- The present pieces hold the covered bytes, and the absent ones the others. -/
theorem Tiling.pieces_iff {p : Int} {present : Bool} : ∀ {fs : List FoundRange} {a b : Int}, Tiling rs a b fs →
    ((∃ f ∈ fs, f.present = present ∧ f.r.Has p) ↔ a ≤ p ∧ p < b ∧ (Covers rs p ↔ present = true))
  | [], a, b, h => by
    simp only [Tiling] at h
    simp only [not_mem_nil, false_and, exists_false, false_iff]
    omega
  | f :: fs, a, b, ⟨hpos, hsize, hstop, hcovers, htail⟩ => by
    have ih := @Tiling.pieces_iff p present fs f.r.stop b htail
    have hend : f.r.stop = f.r.pos + f.r.size := rfl
    simp only [mem_cons, exists_eq_or_imp, ih]
    by_cases hp : f.r.Has p
    · have hp' : f.r.pos ≤ p ∧ p < f.r.stop := hp
      rw [hcovers p hp, ← Bool.eq_iff_iff]
      constructor
      · rintro (⟨hpres, -⟩ | ⟨hle, -, -⟩)
        · exact ⟨by omega, by omega, hpres⟩
        · omega
      · rintro ⟨-, -, hpres⟩
        exact .inl ⟨hpres, hp⟩
    · have hp' : ¬ (f.r.pos ≤ p ∧ p < f.r.stop) := hp
      constructor
      · rintro (⟨-, hhas⟩ | ⟨hle, hlt, hcov⟩)
        · exact absurd hhas hp
        · exact ⟨by omega, hlt, hcov⟩
      · rintro ⟨hle, hlt, hcov⟩
        exact .inr ⟨by omega, hlt, hcov⟩

theorem Tiling.absent_iff (h : Tiling rs a b fs) :
    (∃ f ∈ fs, f.present = false ∧ f.r.Has p) ↔ a ≤ p ∧ p < b ∧ ¬ Covers rs p := by
  rw [h.pieces_iff, iff_false_right Bool.false_ne_true]

theorem covers_present (hcan : Canonical rs) (p : Int) :
    (∃ f ∈ findAll rs r, f.present = true ∧ f.r.Has p) ↔ Covers rs p ∧ r.Has p := by
  by_cases hr : 0 ≤ r.size
  · rw [(findAll_spec hcan hr).pieces_iff, iff_true_right rfl, ← and_assoc, and_comm]
    rfl
  · have hempty : r.isEmpty = true := by simpa [Range.isEmpty] using (not_le.mp hr).le
    simp [findAll_of_nonpos rs (not_le.mp hr).le, not_has_of_isEmpty hempty]

theorem intersection_spec (hcan : Canonical rs) (r : Range) :
    Canonical (intersection rs r) ∧ ∀ p, Covers (intersection rs r) p ↔ Covers rs p ∧ r.Has p := by
  rw [intersection]
  cases rs with
  | nil => exact ⟨canonical_nil, fun p => by simp [covers_nil]⟩
  | cons x rs =>
    obtain ⟨hnew, hcovers⟩ := foldl_insert_spec (((findAll (x :: rs) r).filter (·.present)).map (·.r)) canonical_nil
    rw [foldl_map, foldl_filter] at hnew hcovers
    refine ⟨hnew, fun p => (hcovers p).trans ?_⟩
    rw [← covers_present hcan]
    simp only [covers_nil, false_or, mem_map, mem_filter, exists_exists_and_eq_and]
    simp only [and_assoc]

end ZClone.Ranges
