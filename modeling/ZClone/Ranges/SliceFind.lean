import ZClone.Ranges.Find
import ZClone.Ranges.Slice

/-!
# Looking up ranges in a slice

The code of `Find`, `FindAll`, `Present`, `Intersection` and `FindMissing`, with `int64` arithmetic and the loops
bounded by `fuel`; a loop that is not done has no result.

- `NoOverflow`: what the insertions join up fits; then the slice is the list of `Ranges.insert` (`insertAll_eq`).
- `find_eq`: `find` computes nothing that overflows if the range looked for fits.
- `findAll_pieces` says what the pieces found are, `lookup_correct` what the other functions return.
-/

namespace ZClone.Ranges.Slice

open List

/-! ## The code -/

/-- `Range.Intersection`. -/
def rangeIntersection (r b : Range) : Range :=
  if (b.pos ≤ r.pos ∧ r.pos < stop b) ∨ (r.pos ≤ b.pos ∧ b.pos < stop r) then
    ⟨max r.pos b.pos, int64 (min (stop r) (stop b) - max r.pos b.pos)⟩
  else ⟨0, 0⟩

/-- What is left of `r` behind the piece `curr`. -/
def rest (r curr : Range) : Range := ⟨stop curr, int64 (r.size - curr.size)⟩

/-- `Find` from the element at the index `i` on. -/
def findAt (rs : List Range) (r : Range) (i : Nat) : Range × Range × Bool :=
  match rs[i]? with
  | none => (r, ⟨0, 0⟩, false)
  | some found =>
    let intersection := rangeIntersection found r
    if intersection.isEmpty then (r, ⟨0, 0⟩, false)
    else if r.pos < intersection.pos then
      let curr : Range := ⟨r.pos, int64 (intersection.pos - r.pos)⟩
      (curr, rest r curr, false)
    else (intersection, rest r intersection, true)

def find (rs : List Range) (r : Range) : Range × Range × Bool :=
  if r.isEmpty then (r, ⟨0, 0⟩, false)
  else
    let i := search rs r
    match if 0 < i then rs[i - 1]? else none with
    | none => findAt rs r i
    | some prev =>
      let intersection := rangeIntersection prev r
      if intersection.isEmpty then findAt rs r i else (intersection, rest r intersection, true)

/-- `for !r.IsEmpty() { curr, r, present = rs.Find(r); … }`. -/
def eachPiece {α : Type} (rs : List Range) (body : α → FoundRange → α) : Nat → Range → α → Option α
  | 0, _, _ => none
  | fuel + 1, r, acc =>
    if r.isEmpty then some acc
    else
      let (curr, next, present) := find rs r
      eachPiece rs body fuel next (body acc ⟨curr, present⟩)

def findAll (rs : List Range) (r : Range) (fuel : Nat) : Option (List FoundRange) :=
  eachPiece rs (fun frs fr => frs ++ [fr]) fuel r []

def present (rs : List Range) (r : Range) : Bool :=
  if r.isEmpty then true
  else
    let (_, next, present) := find rs r
    if !present then false else next.isEmpty

/-- The piece found is inserted if it is present. -/
def insertPresent (newRs : List Range) (fr : FoundRange) : List Range := if fr.present then insert newRs fr.r else newRs

def intersection (rs : List Range) (r : Range) (fuel : Nat) : Option (List Range) :=
  if rs.length = 0 then some rs else eachPiece rs insertPresent fuel r []

def findMissing (rs : List Range) (r : Range) : Range :=
  if r.isEmpty then r
  else
    let (curr, _, present) := find rs r
    if !present then r else ⟨stop curr, int64 (r.size - int64 (stop curr - r.pos))⟩

/-! ## Insertions without an overflow -/

/-- The ranges inserted join up to ranges that fit. -/
def NoOverflow (xs : List Range) : Prop := ∀ x ∈ xs.foldl Ranges.insert [], Fits x

instance (xs : List Range) : Decidable (NoOverflow xs) := inferInstanceAs (Decidable (∀ x ∈ _, Fits x))

/-- Each range inserted lies in one of the ranges that come out, and there nothing overflows. -/
theorem insertAll_eq {xs : List Range} (h : NoOverflow xs) : insertAll xs = xs.foldl Ranges.insert [] := by
  obtain ⟨hcan, hcovers⟩ := foldl_insert_spec xs canonical_nil
  refine foldl_insert_eq (exact_within h hcan.gaps) canonical_nil nofun fun r hr hsize => ⟨hsize, ?_⟩
  exact hcan.exists_of_covers hsize fun p hp => (hcovers p).mpr (.inr ⟨r, hr, hp⟩)

/-! ## One piece -/

theorem rangeIntersection_eq {r found : Range} (hr : Fits r) (hsize : 0 < r.size) (hfound : Fits found)
    (hpos : 0 < found.size) : rangeIntersection found r = found.intersection r := by
  have hstop := hr.stop_eq hsize.le
  have hstop' := hfound.stop_eq hpos.le
  rw [rangeIntersection, Range.intersection, hstop, hstop']
  by_cases h : (r.pos ≤ found.pos ∧ found.pos < r.stop) ∨ (found.pos ≤ r.pos ∧ r.pos < found.stop)
  · obtain ⟨hlow, hlen, hhigh⟩ := hr
    rw [if_pos h, if_pos h]
    simp only [Range.stop] at *
    rw [int64_of_lt (by omega) (by omega)]
  · rw [if_neg h, if_neg h]

/-- A piece of a range that fits leaves a rest that fits. -/
theorem rest_eq {r curr : Range} (hr : Fits r) (hcurr : 0 ≤ curr.size) (hpos : r.pos ≤ curr.pos)
    (hstop : curr.stop ≤ r.stop) :
    rest r curr = ⟨curr.stop, r.size - curr.size⟩ := by
  have hbound := hr.size
  have hpart : curr.size ≤ r.size := by
    simp only [Range.stop] at hstop
    omega
  rw [rest, (hr.mono hpos hstop).stop_eq hcurr, int64_of_lt (by omega) (by omega)]

theorem cut_eq {r found : Range} (hr : Fits r) (hsize : 0 < r.size) (hpos : 0 < found.size)
    (hover : (found.intersection r).isEmpty = false) :
    (found.intersection r, rest r (found.intersection r), true) = cut r found := by
  obtain ⟨hp, hs⟩ := intersection_of_overlap hpos hsize hover
  rw [cut, rest_eq hr (not_isEmpty.mp hover).le (by omega) (by omega)]

section

variable {rs : List Range} (hcan : Canonical rs) (hrs : ∀ x ∈ rs, Fits x) {r : Range} {α : Type}

include hcan

theorem search_eq (r : Range) : search rs r = (below rs r).length := by
  have hbelow : ∀ x ∈ below rs r, x.pos < r.pos := fun x => pos_of_mem_below
  have h := search_append hbelow fun x => pos_of_mem_above hcan
  rwa [below_append_above] at h

theorem prev_eq (r : Range) : (if 0 < search rs r then rs[search rs r - 1]? else none) = (below rs r).getLast? := by
  rw [search_eq hcan, getLast?_eq_getElem?]
  by_cases hpos : 0 < (below rs r).length
  · have hget : (below rs r ++ above rs r)[(below rs r).length - 1]? = (below rs r)[(below rs r).length - 1]? :=
      getElem?_append_left (Nat.sub_lt hpos Nat.one_pos)
    rw [below_append_above] at hget
    rw [if_pos hpos, hget]
  · rw [if_neg hpos, getElem?_eq_none (by omega)]

include hrs

theorem findAt_eq (hr : Fits r) (hsize : 0 < r.size) : findAt rs r (search rs r) = findAhead rs r := by
  have hfirst : rs[search rs r]? = (above rs r).head? := by
    have hget : (below rs r ++ above rs r)[(below rs r).length]? = (above rs r)[0]? := by
      rw [getElem?_append_right (Nat.le_refl _), Nat.sub_self]
    rw [below_append_above] at hget
    rw [search_eq hcan, hget, head?_eq_getElem?]
  rw [findAt, findAhead, hfirst]
  cases habove : (above rs r).head? with
  | none => rfl
  | some found =>
    have hmem : found ∈ rs := dropWhile_subset _ (mem_of_mem_head? habove)
    have hpos := hcan.pos found hmem
    simp only [rangeIntersection_eq hr hsize (hrs found hmem) hpos]
    cases hover : (found.intersection r).isEmpty with
    | true => rfl
    | false =>
      by_cases hlt : r.pos < (found.intersection r).pos
      · obtain ⟨hp, hs⟩ := intersection_of_overlap hpos hsize hover
        have hlen := not_isEmpty.mp hover
        have hbound := hr.size
        have hahead : int64 ((found.intersection r).pos - r.pos) = (found.intersection r).pos - r.pos := by
          simp only [Range.stop] at hs
          exact int64_of_lt (by omega) (by omega)
        have hrest : rest r ⟨r.pos, (found.intersection r).pos - r.pos⟩ =
            ⟨(found.intersection r).pos, r.size - ((found.intersection r).pos - r.pos)⟩ := by
          simp only [Range.stop] at hs
          rw [rest_eq hr]
          · simp only [Range.stop, Range.mk.injEq, and_true]
            omega
          · simp only
            omega
          · exact le_refl _
          · simp only [Range.stop]
            omega
        rw [if_pos hlt, if_pos hlt, hahead, hrest]
      · rw [if_neg hlt, if_neg hlt]
        exact cut_eq hr hsize hpos hover

theorem find_eq (hr : 0 < r.size → Fits r) : find rs r = Ranges.find rs r := by
  rw [find, Ranges.find]
  cases hempty : r.isEmpty with
  | true => rfl
  | false =>
    have hsize := not_isEmpty.mp hempty
    have hr := hr hsize
    simp only [Bool.false_eq_true, if_false, prev_eq hcan, findAt_eq hcan hrs hr hsize]
    cases hlast : (below rs r).getLast? with
    | none => rfl
    | some prev =>
      have hmem : prev ∈ rs := takeWhile_subset _ (mem_of_getLast? hlast)
      simp only [rangeIntersection_eq hr hsize (hrs prev hmem) (hcan.pos prev hmem)]
      cases hover : (prev.intersection r).isEmpty with
      | true => rfl
      | false => exact cut_eq hr hsize (hcan.pos prev hmem) hover

/-! ## All pieces -/

/-- By induction on the turns left; what is left of a range that fits does so as well. -/
theorem eachPiece_eq (body : α → FoundRange → α) : ∀ {fuel : Nat} {r : Range} {acc : α}, r.size.toNat ≤ fuel →
    (0 < r.size → Fits r) → eachPiece rs body (fuel + 1) r acc = some ((findAllLoop rs fuel r).foldl body acc)
  | fuel, r, acc, hfuel, hr => by
    rw [eachPiece]
    cases hempty : r.isEmpty with
    | true =>
      rw [findAllLoop_of_isEmpty hempty]
      rfl
    | false =>
      have hsize := not_isEmpty.mp hempty
      have hfound := find_spec hcan hsize
      obtain ⟨fuel, rfl⟩ : ∃ n, fuel = n + 1 := ⟨fuel - 1, by omega⟩
      rw [findAllLoop, find_eq hcan hrs hr, hempty]
      generalize Ranges.find rs r = piece at hfound ⊢
      obtain ⟨curr, next, present⟩ := piece
      have hlt := hfound.toNat_lt
      simp only [Bool.false_eq_true, if_false, foldl_cons] at hlt ⊢
      refine eachPiece_eq body (by omega) fun hnext => ?_
      obtain ⟨hpos, hstop⟩ := hfound.rest.resolve_left fun h => absurd (not_isEmpty.mpr hnext) (by simp [h.1])
      refine (hr hsize).mono ?_ hstop.le
      simp only [Range.stop] at *
      omega

/-- The loop comes to its end on the pieces of the list. -/
theorem eachPiece_findAll (body : α → FoundRange → α) (hr : 0 < r.size → Fits r) {fuel : Nat}
    (hfuel : r.size.toNat < fuel) (acc : α) :
    eachPiece rs body fuel r acc = some ((Ranges.findAll rs r).foldl body acc) := by
  obtain ⟨fuel, rfl⟩ : ∃ n, fuel = n + 1 := ⟨fuel - 1, by omega⟩
  have hfuel := Nat.le_of_lt_succ hfuel
  rw [eachPiece_eq hcan hrs body hfuel hr, findAllLoop_eq hcan hfuel (le_refl _)]
  rfl

end

/-! ## What the functions return -/

variable {xs : List Range}

/-- What `find_spec` and `find_boundary` need. -/
theorem canonical_insertAll (h : NoOverflow xs) : Canonical (insertAll xs) ∧ ∀ x ∈ insertAll xs, Fits x := by
  rw [insertAll_eq h]
  exact ⟨(foldl_insert_spec xs canonical_nil).1, h⟩

/-- `FindAll` comes to an end. Its pieces run through the range, each begins where the one in front ends, and they are
present and absent by turns: a present one has only bytes that are covered, an absent one has none. -/
theorem findAll_pieces (xs : List Range) (r : Range) (hxs : NoOverflow xs) (hr : Fits r) :
    ∃ frs, (∀ fuel, r.size.toNat < fuel → findAll (insertAll xs) r fuel = some frs) ∧
      (0 < r.size → frs.head?.map (·.r.pos) = some r.pos ∧ frs.getLast?.map (·.r.stop) = some r.stop) ∧
      (r.size ≤ 0 → frs = []) ∧ frs.IsChain (fun f g => f.r.stop = g.r.pos ∧ f.present ≠ g.present) ∧
      ∀ f ∈ frs, 0 < f.r.size ∧ stop f.r = f.r.stop ∧ ∀ p, f.r.Has p →
        (Covers (insertAll xs) p ↔ f.present = true) := by
  obtain ⟨hcan, hfits⟩ := canonical_insertAll hxs
  refine ⟨Ranges.findAll (insertAll xs) r, fun fuel hfuel => ?_, fun hsize => ?_, fun hempty => ?_,
    isChain_findAllLoop hcan, fun f hf => ?_⟩
  · rw [findAll, eachPiece_findAll hcan hfits _ (fun _ => hr) hfuel]
    simp [← flatMap_def]
  · have htiling := findAll_spec hcan hsize.le
    have hlt : r.pos < r.stop := by
      simp only [Range.stop]
      omega
    exact ⟨htiling.head hlt, htiling.last hlt⟩
  · exact findAll_of_nonpos _ hempty
  · obtain ⟨hpos, hlen, hstop, hcovers⟩ := (findAll_spec hcan (size_of_mem_findAll hf).le).of_mem f hf
    exact ⟨hlen, (hr.mono hpos hstop).stop_eq hlen.le, hcovers⟩

/-- A range over two inserted ranges that do not touch. -/
theorem findAll_pieces_two :
    ∃ frs, (∀ fuel, 10 < fuel → findAll (insertAll [⟨2, 2⟩, ⟨6, 1⟩]) ⟨0, 10⟩ fuel = some frs) ∧ frs.map (·.present) =
      [false, true, false, true, false] := by
  obtain ⟨frs, hfrs, -⟩ := findAll_pieces [⟨2, 2⟩, ⟨6, 1⟩] ⟨0, 10⟩ (by decide) (by decide)
  have heval : findAll (insertAll [⟨2, 2⟩, ⟨6, 1⟩]) ⟨0, 10⟩ 11 =
      some [⟨⟨0, 2⟩, false⟩, ⟨⟨2, 2⟩, true⟩, ⟨⟨4, 2⟩, false⟩, ⟨⟨6, 1⟩, true⟩, ⟨⟨7, 3⟩, false⟩] := by decide +kernel
  refine ⟨frs, hfrs, ?_⟩
  rw [Option.some.inj ((hfrs 11 (by decide)).symm.trans heval)]
  rfl

section

variable {rs : List Range} (hcan : Canonical rs) (hrs : ∀ x ∈ rs, Fits x) {r : Range} (hr : Fits r)

include hcan hrs hr

/-- All of the range is present if the first piece found is present and nothing is left. -/
theorem present_iff : present rs r = true ↔ r.isEmpty = true ∨ ∀ p, r.Has p → Covers rs p := by
  rw [present, find_eq hcan hrs fun _ => hr]
  cases hempty : r.isEmpty with
  | true => simp
  | false =>
    have hfound := find_spec hcan (not_isEmpty.mp hempty)
    have hboundary := find_boundary hcan (not_isEmpty.mp hempty)
    generalize Ranges.find rs r = piece at hfound hboundary ⊢
    obtain ⟨curr, next, found⟩ := piece
    obtain ⟨hpos, hsize, hstop, hrest, hcovers⟩ := hfound
    have hend : next.isEmpty = true ↔ curr.stop = r.stop := by
      simp only [Range.isEmpty, decide_eq_true_eq, Range.stop] at *
      omega
    have hfirst : curr.Has r.pos := ⟨hpos.le, by simp only [Range.stop] at *; omega⟩
    simp only [Bool.false_eq_true, if_false, false_or]
    cases found with
    | false =>
      refine ⟨fun h => Bool.noConfusion h, fun hall => absurd (hall r.pos ?_) (by simp [hcovers r.pos hfirst])⟩
      exact ⟨le_refl _, lt_of_lt_of_le hfirst.2 hstop⟩
    | true =>
      simp only [Bool.not_true, Bool.false_eq_true, if_false, hend]
      constructor
      · intro hstop p hp
        exact (hcovers p ⟨hpos.trans_le hp.1, hstop.symm ▸ hp.2⟩).mpr rfl
      · intro hall
        by_contra hne
        have hlt : curr.stop < r.stop := lt_of_le_of_ne hstop hne
        simpa using (hboundary hlt).mp (hall _ ⟨hfirst.1.trans hfirst.2.le |>.trans' hpos.ge, hlt⟩)

/-- The pieces lie in the range, so nothing overflows where they are inserted. -/
theorem intersection_eq {fuel : Nat} (hfuel : r.size.toNat < fuel) :
    intersection rs r fuel = some (Ranges.intersection rs r) := by
  have hpieces : ∀ f ∈ Ranges.findAll rs r, Within [r] f.r := by
    intro f hf
    obtain ⟨hpos, hlen, hstop, -⟩ := (findAll_spec hcan (size_of_mem_findAll hf).le).of_mem f hf
    exact ⟨hlen, r, mem_singleton_self r, hpos, hstop⟩
  have hexact : Exact (Within [r]) := exact_within (by simpa using hr) (pairwise_singleton _ _)
  have hpresent : ∀ x ∈ ((Ranges.findAll rs r).filter (·.present)).map (·.r), 0 < x.size → Within [r] x := by
    intro x hx _
    obtain ⟨f, hf, rfl⟩ := mem_map.mp hx
    exact hpieces f (mem_of_mem_filter hf)
  have hinsert := foldl_insert_eq hexact canonical_nil nofun hpresent
  simp only [foldl_map, foldl_filter] at hinsert
  rw [intersection, Ranges.intersection, eachPiece_findAll hcan hrs _ (fun _ => hr) hfuel]
  cases rs with
  | nil => rfl
  | cons x rs => exact congrArg some hinsert

theorem findMissing_ok : ((findMissing rs r).stop = r.stop ∧ r.pos ≤ (findMissing rs r).pos) ∧
    (∀ p, r.pos ≤ p → p < (findMissing rs r).pos → Covers rs p) ∧
    (0 < (findMissing rs r).size → ¬ Covers rs (findMissing rs r).pos) := by
  rw [findMissing, find_eq hcan hrs fun _ => hr]
  cases hempty : r.isEmpty with
  | true =>
    refine ⟨⟨rfl, le_rfl⟩, fun p hle hlt => absurd hlt hle.not_gt, fun hsize => ?_⟩
    exact absurd (not_isEmpty.mpr hsize) (by simp [hempty])
  | false =>
    have hfound := find_spec hcan (not_isEmpty.mp hempty)
    have hboundary := find_boundary hcan (not_isEmpty.mp hempty)
    generalize Ranges.find rs r = piece at hfound hboundary ⊢
    obtain ⟨curr, next, found⟩ := piece
    obtain ⟨hpos, hsize, hstop, hrest, hcovers⟩ := hfound
    cases found with
    | false =>
      refine ⟨⟨rfl, le_rfl⟩, fun p hle hlt => absurd hlt hle.not_gt, fun hlen => ?_⟩
      have hfirst : curr.Has r.pos := ⟨hpos.le, by simp only [Range.stop] at *; omega⟩
      simpa using hcovers r.pos hfirst
    | true =>
      have hbound := hr.size
      have hcurr : stop curr = curr.stop := (hr.mono hpos.ge hstop).stop_eq hsize.le
      have hlen : int64 (r.size - int64 (curr.stop - r.pos)) = r.stop - curr.stop := by
        simp only [Range.stop] at *
        have hdiff : int64 (curr.pos + curr.size - r.pos) = curr.size := by
          rw [int64_of_lt (by omega) (by omega)]
          omega
        rw [hdiff, int64_of_lt (by omega) (by omega)]
        omega
      simp only [Bool.not_true, Bool.false_eq_true, if_false, hcurr, hlen]
      refine ⟨?_, fun p hle hlt => (hcovers p ⟨hpos.trans_le hle, hlt⟩).mpr rfl, fun hmore => ?_⟩
      · simp only [Range.stop] at *
        omega
      · simpa using hboundary (show curr.stop < r.stop by omega)

end

/-- `Present` says whether each byte of the range is covered. `Intersection` comes to an end; it covers what is covered
in the range, and is sorted with gaps again. `FindMissing` leaves out bytes in front that are covered, up to the first
that is not. -/
theorem lookup_correct (xs : List Range) (r : Range) (hxs : NoOverflow xs) (hr : Fits r) :
    (present (insertAll xs) r = true ↔ r.isEmpty = true ∨ ∀ p, r.Has p → Covers (insertAll xs) p) ∧
      (∃ new, (∀ fuel, r.size.toNat < fuel → intersection (insertAll xs) r fuel = some new) ∧ Canonical new ∧
        ∀ p, Covers new p ↔ Covers (insertAll xs) p ∧ r.Has p) ∧
      stop (findMissing (insertAll xs) r) = stop r ∧
      (∀ p, r.pos ≤ p → p < (findMissing (insertAll xs) r).pos → Covers (insertAll xs) p) ∧
      (0 < (findMissing (insertAll xs) r).size → ¬ Covers (insertAll xs) (findMissing (insertAll xs) r).pos) := by
  obtain ⟨hcan, hfits⟩ := canonical_insertAll hxs
  obtain ⟨⟨hstop, -⟩, hmissing⟩ := findMissing_ok hcan hfits hr
  exact ⟨present_iff hcan hfits hr, ⟨_, fun _ => intersection_eq hcan hfits hr, intersection_spec hcan r⟩,
    congrArg int64 hstop, hmissing⟩

theorem lookup_correct_two : insertAll [⟨2, 2⟩, ⟨6, 1⟩] = [⟨2, 2⟩, ⟨6, 1⟩] ∧
    findMissing (insertAll [⟨2, 2⟩, ⟨6, 1⟩]) ⟨3, 4⟩ = ⟨4, 3⟩ ∧
    (0 < (findMissing (insertAll [⟨2, 2⟩, ⟨6, 1⟩]) ⟨3, 4⟩).size →
      ¬ Covers (insertAll [⟨2, 2⟩, ⟨6, 1⟩]) (findMissing (insertAll [⟨2, 2⟩, ⟨6, 1⟩]) ⟨3, 4⟩).pos) :=
  ⟨by decide, by decide, (lookup_correct [⟨2, 2⟩, ⟨6, 1⟩] ⟨3, 4⟩ (by decide) (by decide)).2.2.2.2⟩

end ZClone.Ranges.Slice
