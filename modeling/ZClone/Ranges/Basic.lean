import Mathlib.Data.List.Basic
import Mathlib.Data.List.TakeWhile
import Mathlib.Data.Int.Order.Basic
import Mathlib.Order.Basic
import Mathlib.Tactic.Tauto

/-!
# Byte ranges (`lib/ranges/ranges.go`)

A set of byte positions as a sorted list of ranges. Positions and sizes are `int64` in the source; here they are
integers, so ends never overflow.

- `insert` adds a range and coalesces it with its neighbours; `find` cuts the first present or absent piece off a range,
  `findAll` cuts it completely, `intersection` keeps what lies in a range.
- `Canonical`: sorted, no empty range, and a gap between any two. `insert` keeps it (`canonical_insert`) and adds
  exactly the bytes of the range (`covers_insert`).
-/

namespace ZClone.Ranges

open List

structure Range where
  pos : Int
  size : Int
  deriving DecidableEq

namespace Range

/-- `End`. -/
def stop (r : Range) : Int := r.pos + r.size

def isEmpty (r : Range) : Bool := r.size ≤ 0

def intersection (r b : Range) : Range :=
  if (b.pos ≤ r.pos ∧ r.pos < b.stop) ∨ (r.pos ≤ b.pos ∧ b.pos < r.stop) then
    ⟨max r.pos b.pos, min r.stop b.stop - max r.pos b.pos⟩
  else ⟨0, 0⟩

/-- The byte lies in the range. -/
def Has (r : Range) (p : Int) : Prop := r.pos ≤ p ∧ p < r.stop

instance (r : Range) (p : Int) : Decidable (r.Has p) := inferInstanceAs (Decidable (_ ∧ _))

end Range

/-- `merge`: the second range grown to hold the first, which starts no later; nothing if there is a gap between them. -/
def merge (new dst : Range) : Option Range :=
  if new.stop < dst.pos then none
  else some ⟨new.pos, if dst.stop < new.stop then new.size else dst.size + (dst.pos - new.pos)⟩

/-- The loop of `coalesce`: merge a range into its successors up to the first gap. -/
def absorb (r : Range) : List Range → List Range
  | [] => [r]
  | next :: rest =>
    match merge r next with
    | some merged => absorb merged rest
    | none => r :: next :: rest

/-- `coalesce`; the element inserted is `r`, between `before` and `after`. -/
def coalesce (before : List Range) (r : Range) (after : List Range) : List Range :=
  match before.getLast?.bind (merge · r) with
  | some merged => before.dropLast ++ absorb merged after
  | none => before ++ absorb r after

/-- The present piece that a range found begins with, and the rest. -/
def cut (r found : Range) : Range × Range × Bool :=
  (found.intersection r, ⟨(found.intersection r).stop, r.size - (found.intersection r).size⟩, true)

section

variable (rs : List Range) (r : Range)

/-- The ranges in front of the index that `search` returns. -/
def below : List Range := rs.takeWhile (·.pos < r.pos)

/-- The ranges from the index that `search` returns on. -/
def above : List Range := rs.dropWhile (·.pos < r.pos)

def insert : List Range :=
  if r.isEmpty then rs
  else
    match above rs r with
    | [] => coalesce (below rs r) r []
    | found :: after =>
      match merge r found with
      | some merged => coalesce (below rs r) merged after
      | none => coalesce (below rs r) r (found :: after)

/-- The part of `Find` for the first range that starts no earlier. -/
def findAhead : Range × Range × Bool :=
  match (above rs r).head? with
  | none => (r, ⟨0, 0⟩, false)
  | some found =>
    if (found.intersection r).isEmpty then (r, ⟨0, 0⟩, false)
    else if r.pos < (found.intersection r).pos then
      (⟨r.pos, (found.intersection r).pos - r.pos⟩,
        ⟨(found.intersection r).pos, r.size - ((found.intersection r).pos - r.pos)⟩, false)
    else cut r found

/-- `Find`: the piece found, what is left to look for, and whether the piece is present. -/
def find : Range × Range × Bool :=
  if r.isEmpty then (r, ⟨0, 0⟩, false)
  else
    match (below rs r).getLast? with
    | none => findAhead rs r
    | some prev => if (prev.intersection r).isEmpty then findAhead rs r else cut r prev

end

structure FoundRange where
  r : Range
  present : Bool
  deriving DecidableEq

/-- The loop of `FindAll`; every turn uses up at least one byte. -/
def findAllLoop (rs : List Range) : Nat → Range → List FoundRange
  | 0, _ => []
  | fuel + 1, r =>
    if r.isEmpty then []
    else ⟨(find rs r).1, (find rs r).2.2⟩ :: findAllLoop rs fuel (find rs r).2.1

def findAll (rs : List Range) (r : Range) : List FoundRange := findAllLoop rs r.size.toNat r

/-- The loop of `Ranges.Intersection`, over the pieces that `Find` returns. -/
def intersection (rs : List Range) (r : Range) : List Range :=
  if rs.isEmpty then rs
  else (findAll rs r).foldl (fun new found => if found.present then insert new found.r else new) []

/-- The byte lies in one of the ranges. -/
def Covers (rs : List Range) (p : Int) : Prop := ∃ r ∈ rs, r.Has p

instance (rs : List Range) (p : Int) : Decidable (Covers rs p) := inferInstanceAs (Decidable (∃ r ∈ rs, _))

/-- Sorted, without empty ranges, and with a gap between any two. -/
structure Canonical (rs : List Range) : Prop where
  pos : ∀ r ∈ rs, 0 < r.size
  gaps : rs.Pairwise fun a b => a.stop < b.pos

/-! ## Small facts -/

variable {r a b x : Range} {rs rs' : List Range} {p : Int}

theorem not_isEmpty : r.isEmpty = false ↔ 0 < r.size := by simp [Range.isEmpty]

theorem not_has_of_isEmpty (h : r.isEmpty = true) (p : Int) : ¬ r.Has p := by
  simp only [Range.isEmpty, decide_eq_true_eq] at h
  intro hp
  simp only [Range.Has, Range.stop] at hp
  omega

theorem covers_nil (p : Int) : ¬ Covers [] p := by simp [Covers]

theorem covers_cons : Covers (r :: rs) p ↔ r.Has p ∨ Covers rs p := by
  simp [Covers]

theorem covers_append : Covers (rs ++ rs') p ↔ Covers rs p ∨ Covers rs' p := by
  simp [Covers, or_and_right, exists_or]

theorem canonical_nil : Canonical [] := ⟨by simp, .nil⟩

theorem canonical_cons : Canonical (r :: rs) ↔ 0 < r.size ∧ (∀ x ∈ rs, r.stop < x.pos) ∧ Canonical rs := by
  constructor
  · rintro ⟨hpos, hgaps⟩
    obtain ⟨hhead, htail⟩ := pairwise_cons.mp hgaps
    exact ⟨hpos r mem_cons_self, hhead, fun x hx => hpos x (mem_cons_of_mem _ hx), htail⟩
  · rintro ⟨hr, hhead, htail⟩
    exact ⟨forall_mem_cons.mpr ⟨hr, htail.pos⟩, pairwise_cons.mpr ⟨hhead, htail.gaps⟩⟩

theorem canonical_append :
    Canonical (rs ++ rs') ↔ Canonical rs ∧ Canonical rs' ∧ ∀ x ∈ rs, ∀ y ∈ rs', x.stop < y.pos := by
  constructor
  · rintro ⟨hpos, hgaps⟩
    obtain ⟨hpos₁, hpos₂⟩ := forall_mem_append.mp hpos
    obtain ⟨hgaps₁, hgaps₂, hcross⟩ := pairwise_append.mp hgaps
    exact ⟨⟨hpos₁, hgaps₁⟩, ⟨hpos₂, hgaps₂⟩, hcross⟩
  · rintro ⟨h₁, h₂, hcross⟩
    exact ⟨forall_mem_append.mpr ⟨h₁.pos, h₂.pos⟩, pairwise_append.mpr ⟨h₁.gaps, h₂.gaps, hcross⟩⟩

/-- Two ranges of a list with gaps are the same or have one between them. -/
theorem eq_or_apart (hgaps : rs.Pairwise fun a b => a.stop < b.pos) (ha : a ∈ rs)
    (hb : b ∈ rs) : a = b ∨ a.stop < b.pos ∨ b.stop < a.pos := by
  obtain ⟨i, hi, rfl⟩ := getElem_of_mem ha
  obtain ⟨j, hj, rfl⟩ := getElem_of_mem hb
  rcases Nat.lt_trichotomy i j with hlt | rfl | hlt
  · exact .inr (.inl (pairwise_iff_getElem.mp hgaps i j hi hj hlt))
  · exact .inl rfl
  · exact .inr (.inr (pairwise_iff_getElem.mp hgaps j i hj hi hlt))

theorem Canonical.not_covers_stop (h : Canonical rs) (hr : r ∈ rs) : ¬ Covers rs r.stop := by
  rintro ⟨x, hx, hpos, hstop⟩
  rcases eq_or_apart h.gaps hr hx with rfl | hlt | hlt
  · omega
  · omega
  · have := h.pos r hr
    simp only [Range.stop] at *
    omega

/-- A range all of whose bytes are covered lies in one of the ranges. -/
theorem Canonical.exists_of_covers (h : Canonical rs) (hr : 0 < r.size)
    (hcovers : ∀ p, r.Has p → Covers rs p) : ∃ x ∈ rs, x.pos ≤ r.pos ∧ r.stop ≤ x.stop := by
  obtain ⟨x, hx, hpos, hstop⟩ := hcovers r.pos ⟨le_refl _, by simp only [Range.stop]; omega⟩
  refine ⟨x, hx, hpos, ?_⟩
  by_contra hlt
  exact h.not_covers_stop hx (hcovers x.stop ⟨by omega, by omega⟩)

/-! ## Insertion -/

theorem merge_eq_none (h : merge a b = none) : a.stop < b.pos := by
  rw [merge] at h
  split at h
  · assumption
  · simp at h

/-- Merging gives the hull of two ranges that touch or overlap. -/
theorem merge_eq_some {m : Range} (ha : 0 < a.size) (hab : a.pos ≤ b.pos) (h : merge a b = some m) :
    m.pos = a.pos ∧ 0 < m.size ∧ b.stop ≤ m.stop ∧ ∀ p, m.Has p ↔ a.Has p ∨ b.Has p := by
  rw [merge] at h
  split at h
  · simp at h
  · rename_i htouch
    obtain rfl := Option.some.inj h
    simp only [Range.stop, Range.Has] at htouch ⊢
    refine ⟨trivial, ?_, ?_, fun p => ?_⟩ <;> split_ifs <;> omega

/-- By induction on the ranges behind: the merged range takes the place of those it touches. -/
theorem absorb_spec : ∀ {rs : List Range} {r : Range}, 0 < r.size → Canonical rs → (∀ x ∈ rs, r.pos ≤ x.pos) →
    Canonical (absorb r rs) ∧ (∀ x ∈ absorb r rs, r.pos ≤ x.pos) ∧ ∀ p, Covers (absorb r rs) p ↔ r.Has p ∨ Covers rs p
  | [], r, hr, _, _ => by
    refine ⟨canonical_cons.mpr ⟨hr, by simp, canonical_nil⟩, by simp [absorb], fun p => ?_⟩
    rw [absorb, covers_cons]
  | next :: rest, r, hr, hcan, hle => by
    obtain ⟨hnext, hgap, hrest⟩ := canonical_cons.mp hcan
    have hpos := hle next mem_cons_self
    cases hmerge : merge r next with
    | none =>
      have hfar := merge_eq_none hmerge
      rw [absorb, hmerge]
      refine ⟨canonical_cons.mpr ⟨hr, ?_, hcan⟩, ?_, fun p => covers_cons⟩
      · intro x hx
        rcases mem_cons.mp hx with rfl | hx
        · exact hfar
        · have := hgap x hx
          simp only [Range.stop] at *
          omega
      · intro x hx
        rcases mem_cons.mp hx with rfl | hx
        · exact le_refl _
        · exact hle x hx
    | some m =>
      obtain ⟨hmpos, hm, hstop, hhas⟩ := merge_eq_some hr hpos hmerge
      have hlater : ∀ x ∈ rest, m.pos ≤ x.pos := by
        intro x hx
        rw [hmpos]
        exact hle x (mem_cons_of_mem _ hx)
      obtain ⟨ih₁, ih₂, ih₃⟩ := absorb_spec hm hrest hlater
      rw [absorb, hmerge]
      refine ⟨ih₁, fun x hx => hmpos ▸ ih₂ x hx, fun p => ?_⟩
      rw [ih₃, hhas, covers_cons, or_assoc]

theorem coalesce_spec {before after : List Range} (hr : 0 < r.size) (hbefore : Canonical before)
    (hafter : Canonical after) (hlt : ∀ x ∈ before, x.pos < r.pos) (hle : ∀ x ∈ after, r.pos ≤ x.pos) :
    Canonical (coalesce before r after) ∧
      ∀ p, Covers (coalesce before r after) p ↔ Covers before p ∨ r.Has p ∨ Covers after p := by
  rw [coalesce]
  rcases eq_nil_or_concat' before with rfl | ⟨init, last, rfl⟩
  · obtain ⟨hcan, -, hcov⟩ := absorb_spec hr hafter hle
    exact ⟨hcan, fun p => by simp [hcov, covers_nil]⟩
  · obtain ⟨hinit, hlast, hcross⟩ := canonical_append.mp hbefore
    obtain ⟨hlastpos, -, -⟩ := canonical_cons.mp hlast
    have hlastlt := hlt last (by simp)
    cases hmerge : merge last r with
    | some m =>
      obtain ⟨hmpos, hm, -, hhas⟩ := merge_eq_some hlastpos (le_of_lt hlastlt) hmerge
      obtain ⟨hcan, hfrom, hcov⟩ := absorb_spec hm hafter fun x hx => by
        have := hle x hx
        omega
      simp only [getLast?_append, getLast?_singleton, Option.some_or, Option.bind_some,
        hmerge, dropLast_concat]
      refine ⟨canonical_append.mpr ⟨hinit, hcan, ?_⟩, fun p => ?_⟩
      · intro x hx y hy
        have hx' := hcross x hx last (by simp)
        have hy' := hfrom y hy
        omega
      · rw [covers_append, hcov, hhas, covers_append, covers_cons]
        simp only [covers_nil, or_false]
        tauto
    | none =>
      have hgap := merge_eq_none hmerge
      obtain ⟨hcan, hfrom, hcov⟩ := absorb_spec hr hafter hle
      simp only [getLast?_append, getLast?_singleton, Option.some_or, Option.bind_some,
        hmerge]
      refine ⟨canonical_append.mpr ⟨hbefore, hcan, ?_⟩, fun p => by rw [covers_append, hcov]⟩
      intro x hx y hy
      have hy' := hfrom y hy
      rcases mem_append.mp hx with hx | hx
      · have hx' := hcross x hx last (by simp)
        omega
      · obtain rfl := mem_singleton.mp hx
        omega

theorem below_append_above (rs : List Range) (r : Range) : below rs r ++ above rs r = rs := takeWhile_append_dropWhile

theorem pos_of_mem_below (h : x ∈ below rs r) : x.pos < r.pos := by
  simpa using mem_takeWhile_imp h

/-- Behind the first range that starts no earlier, all others start later. -/
theorem pos_of_mem_above (hcan : Canonical rs) (h : x ∈ above rs r) : r.pos ≤ x.pos := by
  have hsplit := below_append_above rs r
  cases habove : above rs r with
  | nil => simp [habove] at h
  | cons y ys =>
    have hy : r.pos ≤ y.pos := by
      have hhead := head?_dropWhile_not (fun x : Range => decide (x.pos < r.pos)) rs
      rw [show rs.dropWhile (fun x : Range => decide (x.pos < r.pos)) = y :: ys from habove] at hhead
      simpa using hhead
    rw [← hsplit, habove] at hcan
    obtain ⟨hpos, hgap, -⟩ := canonical_cons.mp (canonical_append.mp hcan).2.1
    rcases mem_cons.mp (habove ▸ h) with rfl | hx
    · exact hy
    · have := hgap x hx
      simp only [Range.stop] at this
      omega

theorem insert_spec (hcan : Canonical rs) (r : Range) :
    Canonical (insert rs r) ∧ ∀ p, Covers (insert rs r) p ↔ Covers rs p ∨ r.Has p := by
  rw [insert]
  split
  · rename_i hempty
    exact ⟨hcan, fun p => by simp [not_has_of_isEmpty hempty p]⟩
  · rename_i hne
    have hr : 0 < r.size := not_isEmpty.mp (by simpa using hne)
    have hsplit := below_append_above rs r
    obtain ⟨hbelow, habove, hcross⟩ := canonical_append.mp (hsplit.symm ▸ hcan)
    have hcovers : ∀ p, Covers rs p ↔ Covers (below rs r) p ∨ Covers (above rs r) p := fun p => by
      rw [← covers_append, hsplit]
    have hlt : ∀ x ∈ below rs r, x.pos < r.pos := fun x => pos_of_mem_below
    have hle : ∀ x ∈ above rs r, r.pos ≤ x.pos := fun x => pos_of_mem_above hcan
    split
    · rename_i hnil
      obtain ⟨h₁, h₂⟩ := coalesce_spec hr hbelow canonical_nil hlt (by simp)
      exact ⟨h₁, fun p => by rw [h₂, hcovers, hnil]; simp [covers_nil]⟩
    · rename_i found after hcons
      rw [hcons] at habove hle hcovers
      obtain ⟨hfound, hgap, hafter⟩ := canonical_cons.mp habove
      split
      · rename_i m hmerge
        obtain ⟨hmpos, hm, -, hhas⟩ := merge_eq_some hr (hle found mem_cons_self) hmerge
        obtain ⟨h₁, h₂⟩ := coalesce_spec hm hbelow hafter (fun x hx => by rw [hmpos]; exact hlt x hx)
          fun x hx => by rw [hmpos]; exact hle x (mem_cons_of_mem _ hx)
        refine ⟨h₁, fun p => ?_⟩
        rw [h₂, hcovers, hhas, covers_cons]
        tauto
      · obtain ⟨h₁, h₂⟩ := coalesce_spec hr hbelow habove hlt hle
        refine ⟨h₁, fun p => ?_⟩
        rw [h₂, hcovers]
        tauto

theorem canonical_insert (h : Canonical rs) (r : Range) : Canonical (insert rs r) := (insert_spec h r).1

theorem covers_insert (h : Canonical rs) (r : Range) (p : Int) :
    Covers (insert rs r) p ↔ Covers rs p ∨ r.Has p := (insert_spec h r).2 p

theorem foldl_insert_spec : ∀ (rs : List Range) {start : List Range}, Canonical start →
    Canonical (rs.foldl insert start) ∧ ∀ p, Covers (rs.foldl insert start) p ↔ Covers start p ∨ ∃ r ∈ rs, r.Has p
  | [], start, hcan => ⟨hcan, by simp⟩
  | r :: rs, start, hcan => by
    obtain ⟨hcan', hcovers⟩ := foldl_insert_spec rs (canonical_insert hcan r)
    refine ⟨hcan', fun p => ?_⟩
    rw [foldl_cons, hcovers, covers_insert hcan, or_assoc]
    simp

end ZClone.Ranges
