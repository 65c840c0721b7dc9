import Mathlib.Algebra.Order.Ring.Int
import ZClone.Lib.Int64

/-!
# Range requests (`fs/open_options.go`)

A range has a first and a last byte, either of which may be missing (negative): without a last byte it goes to the end,
without a first byte it is the given number of bytes from the end.

`RangeOption.bytes` is what an object hands out for a range; `bytes_of_span` and `bytes_of_open` say which bytes these
are.

`FixRangeOption` writes ranges for backends that count from the start only. Its test for a range that is too long lets
the size itself pass as a last byte, and with neither end given it starts behind the object (`fixRangeOption_iff`).
-/

namespace ZClone.Operations

open List

/-- `last` is the source's `End`, the last byte of the range and not the one behind it. -/
structure RangeOption where
  start : Int
  last : Int
  deriving DecidableEq

/-- Where to start and how many bytes to read, or all of them when the second part is negative. -/
def RangeOption.decode (o : RangeOption) (size : Int) : Int × Int :=
  if 0 ≤ o.start then (o.start, if 0 ≤ o.last then int64 (o.last - o.start + 1) else -1)
  else (if 0 ≤ o.last then max (int64 (size - o.last)) 0 else 0, -1)

/-- The bytes of a content from an offset, at most `limit` of them unless that is negative. -/
def extract {β : Type} (content : List β) (offset limit : Int) : List β :=
  if limit < 0 then content.drop offset.toNat else (content.drop offset.toNat).take limit.toNat

def RangeOption.bytes {β : Type} (o : RangeOption) (content : List β) : List β :=
  extract content (o.decode content.length).1 (o.decode content.length).2

open RangeOption (decode bytes)

variable {β : Type} {content : List β} {o : OpenOption}

theorem bytes_of_span {start last : Nat} (h : start ≤ last + 1) (hlast : last + 1 < start + 2 ^ 63) :
    bytes ⟨start, last⟩ content = (content.drop start).take (last + 1 - start) := by
  have hlimit : int64 ((last : Int) - start + 1) = (last + 1 - start : Nat) := by
    rw [int64_of_lt (by omega) (by omega)]
    omega
  unfold bytes decode
  simp only [Int.natCast_nonneg, if_true, hlimit]
  rw [extract, if_neg (by omega), Int.toNat_natCast, Int.toNat_natCast]

theorem bytes_of_open {start : Nat} {last : Int} (h : last < 0) : bytes ⟨start, last⟩ content = content.drop start := by
  unfold bytes decode
  simp only [Int.natCast_nonneg, if_true, if_neg (show ¬ 0 ≤ last by omega)]
  rw [extract, if_pos (by omega), Int.toNat_natCast]

/-! ## Fixing ranges -/

/-- What `Open` can be asked for; the other options have a header that no range depends on. -/
inductive OpenOption where
  | range (o : RangeOption)
  | seek (offset : Int)
  | null
  | other (header : String × String)
  deriving DecidableEq

def fixRange (size : Int) : OpenOption → OpenOption
  | .range x =>
    let x := if x.start < 0 then ⟨max (int64 (size - x.last)) 0, -1⟩ else x
    .range (if size < x.last ∨ x.last < 0 then ⟨x.start, size - 1⟩ else x)
  | .seek offset => .range ⟨offset, size - 1⟩
  | o => o

def fixRangeOption (options : List OpenOption) (size : Int) : List OpenOption :=
  if size < 0 then options
  else if size = 0 then options.map fun
    | .range _ => .null
    | o => o
  else options.map (fixRange size)

def OpenOption.bytes (content : List β) : OpenOption → List β
  | .range o => o.bytes content
  | .seek offset => content.drop offset.toNat
  | _ => content

/-- The numbers of an option are `int64` values. -/
def OpenOption.Fits : OpenOption → Prop
  | .range o => (-2 ^ 63 ≤ o.start ∧ o.start < 2 ^ 63) ∧ -2 ^ 63 ≤ o.last ∧ o.last < 2 ^ 63
  | .seek offset => -2 ^ 63 ≤ offset ∧ offset < 2 ^ 63
  | _ => True

/-- One end of the range is given, unless the difference to the size overflows; the last byte is not the one right
behind the object, unless the range is behind it as well; and nobody seeks to a place in front of the object. -/
def OpenOption.Fixable (size : Int) : OpenOption → Prop
  | .range o => (o.start < 0 → o.last < 0 → 2 ^ 63 ≤ size - o.last) ∧ (o.last = size → o.start < 0 ∨ size ≤ o.start)
  | .seek offset => 0 ≤ offset
  | _ => True

/-- The option asks for the same bytes as `o`, and a range that has any is inside of the object. -/
def Fixed (content : List β) (o fixed : OpenOption) : Prop :=
  fixed.bytes content = o.bytes content ∧
    ∀ r, fixed = .range r → r.bytes content ≠ [] → 0 ≤ r.start ∧ r.last ≤ content.length - 1

theorem bytes_to_end {start last : Int} (hstart : 0 ≤ start) (hs : start < 2 ^ 63) (hl : last < 2 ^ 63)
    (hlast : last < 0 ∨ (content.length : Int) ≤ last + 1) :
    bytes ⟨start, last⟩ content = content.drop start.toNat := by
  rw [bytes, decode, if_pos hstart]
  dsimp only
  split_ifs with hgiven
  · unfold extract
    split_ifs with hlimit
    · rfl
    · -- a limit that is not negative did not overflow, so it reaches the end
      have hsum : last - start + 1 < 2 ^ 63 := by
        by_contra hover
        have := int64_of_le (x := last - start + 1) (by omega) (by omega)
        omega
      rw [int64_of_lt (by omega) hsum] at hlimit ⊢
      exact take_of_length_le (by rw [length_drop]; omega)
  · rfl

theorem drop_eq_self_iff (hne : content ≠ []) (n : Nat) : content.drop n = content ↔ n = 0 := by
  have hpos := length_pos_iff.mpr hne
  constructor
  · intro h
    have := congrArg length h
    rw [length_drop] at this
    omega
  · rintro rfl
    rfl

/-- A range that goes to the last byte is inside. -/
theorem fixed_to_end_iff {start : Int} (hstart : 0 ≤ start) (hs : start < 2 ^ 63)
    (hsize : (content.length : Int) < 2 ^ 63) :
    Fixed content o (.range ⟨start, content.length - 1⟩) ↔ content.drop start.toNat = o.bytes content := by
  rw [Fixed, OpenOption.bytes, bytes_to_end hstart hs (by omega) (by omega)]
  refine and_iff_left ?_
  rintro r ⟨⟩ -
  exact ⟨hstart, le_rfl⟩

section Fix

variable (hne : content ≠ []) (hsize : (content.length : Int) < 2 ^ 63)
include hne hsize

theorem fixed_range_iff {o : RangeOption} (hfits : (OpenOption.range o).Fits) :
    Fixed content (.range o) (fixRange content.length (.range o)) ↔ (OpenOption.range o).Fixable content.length := by
  obtain ⟨start, last⟩ := o
  obtain ⟨⟨hs, hs'⟩, hl, hl'⟩ := hfits
  dsimp only at hs hs' hl hl'
  rw [OpenOption.Fixable, fixRange]
  dsimp only
  by_cases hstart : start < 0
  · have hmax : int64 (content.length - last) < 2 ^ 63 := by
      rw [int64, Int.bmod_def]
      omega
    have hlast : (-1 : Int) < 0 := by decide
    rw [if_pos hstart, if_pos (.inr hlast), fixed_to_end_iff (le_max_right _ _) (max_lt hmax (by decide)) hsize,
      and_iff_left fun _ => .inl hstart, OpenOption.bytes, bytes, decode,
      if_neg (not_le.mpr hstart)]
    by_cases hlast : 0 ≤ last
    · simp only [if_pos hlast]
      exact iff_of_true rfl fun _ _ => by omega
    · -- neither end is given: the whole object
      simp only [if_neg hlast]
      refine (drop_eq_self_iff hne _).trans ?_
      rw [int64, Int.bmod_def]
      omega
  · rw [if_neg hstart]
    have hstart' : 0 ≤ start := not_lt.mp hstart
    split_ifs with hlong
    · dsimp only at hlong
      refine iff_of_true ((fixed_to_end_iff hstart' hs' hsize).mpr ?_) ⟨by omega, by omega⟩
      exact (bytes_to_end hstart' hs' hl' (by omega)).symm
    · dsimp only at hlong
      rw [Fixed, and_iff_right rfl, and_iff_right fun h => absurd h hstart]
      constructor
      · rintro h rfl
        by_contra hbefore
        have hbytes := show _ = content.drop _ from bytes_to_end hstart' hs' hl' (by omega)
        have hinside := (h _ rfl (by rw [hbytes, Ne, drop_eq_nil_iff]; omega)).2
        dsimp only at hinside
        omega
      · rintro h r ⟨⟩ hbytes
        refine ⟨hstart', ?_⟩
        dsimp only
        by_contra hbehind
        rw [bytes_to_end hstart' hs' hl' (by omega), Ne, drop_eq_nil_iff] at hbytes
        omega

theorem fixed_iff (hfits : o.Fits) : Fixed content o (fixRange content.length o) ↔ o.Fixable content.length := by
  have hpos : (0 : Int) < content.length := by exact_mod_cast length_pos_iff.mpr hne
  cases o with
  | range o => exact fixed_range_iff hne hsize hfits
  | seek offset =>
    rw [OpenOption.Fixable, fixRange]
    by_cases hstart : 0 ≤ offset
    · exact iff_of_true ((fixed_to_end_iff hstart hfits.2 hsize).mpr rfl) hstart
    · refine iff_of_false (fun h => ?_) hstart
      -- as the start of a range the offset asks for all bytes but the first
      have hbytes := h.1
      rw [OpenOption.bytes, OpenOption.bytes, bytes, decode, if_neg hstart, if_pos (by dsimp only; omega),
        int64_of_lt (by dsimp only; omega) (by dsimp only; omega), Int.toNat_of_nonpos (by omega)] at hbytes
      have := (drop_eq_self_iff hne _).mp hbytes
      dsimp only at this
      omega
  | null | other => exact iff_of_true ⟨rfl, fun r hr => nomatch hr⟩ trivial

/-- The options ask for the same bytes as before, and the ranges are inside of the object, just when all of them are
fixable. -/
theorem fixRangeOption_iff {options : List OpenOption} (hfits : ∀ o ∈ options, o.Fits) :
    ((fixRangeOption options content.length).map (·.bytes content) = options.map (·.bytes content) ∧
      ∀ r : RangeOption, .range r ∈ fixRangeOption options content.length → r.bytes content ≠ [] → 0 ≤ r.start ∧
    r.last ≤ content.length - 1) ↔ ∀ o ∈ options, o.Fixable content.length := by
  have hpos : (0 : Int) < content.length := by exact_mod_cast length_pos_iff.mpr hne
  rw [fixRangeOption, if_neg (by omega), if_neg (by omega), map_map, map_inj_left]
  constructor
  · rintro ⟨hbytes, hinside⟩ o ho
    refine (fixed_iff hne hsize (hfits o ho)).mp ⟨hbytes o ho, fun r hr => hinside r ?_⟩
    exact hr ▸ mem_map_of_mem ho
  · intro h
    have hfixed := fun o ho => (fixed_iff hne hsize (hfits o ho)).mpr (h o ho)
    refine ⟨fun o ho => (hfixed o ho).1, fun r hr => ?_⟩
    obtain ⟨o, ho, hr⟩ := mem_map.mp hr
    exact (hfixed o ho).2 r hr

end Fix

/-- Of three bytes: the last two, all from the second on, and all. -/
theorem fixRangeOption_three :
    (fixRangeOption [.range ⟨-1, 2⟩, .seek 1, .range ⟨0, 9⟩] 3).map (·.bytes "abc".toList) =
    ["bc".toList, "bc".toList, "abc".toList] := by
  have hfixable : ∀ o ∈ [.range ⟨-1, 2⟩, .seek 1, .range ⟨0, 9⟩], OpenOption.Fixable 3 o := by simp [OpenOption.Fixable]
  have hfits : ∀ o ∈ [.range ⟨-1, 2⟩, .seek 1, .range ⟨0, 9⟩], OpenOption.Fits o := by simp [OpenOption.Fits]
  exact ((fixRangeOption_iff (show "abc".toList ≠ [] by decide) (by decide) hfits).mpr hfixable).1

/-- Bytes 0 to 3 of three are left as they are, and a range with neither end is moved behind the object. -/
theorem fixRangeOption_fails : fixRangeOption [.range ⟨0, 3⟩] 3 = [.range ⟨0, 3⟩] ∧
      (bytes ⟨-1, -1⟩ "abc".toList = "abc".toList ∧ fixRangeOption [.range ⟨-1, -1⟩] 3 = [.range ⟨4, 2⟩] ∧
        bytes ⟨4, 2⟩ "abc".toList = []) := by
  decide

end ZClone.Operations
