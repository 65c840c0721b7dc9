import Mathlib.Data.Set.List
import ZClone.Encoder.Acceptable
import ZClone.Lib.Path

/-!
# Paths in the standard encoding

`fromStandardPath` writes a path in the encoding of a backend, segment by segment, and `toStandardPath` reads it back.
`standardPath_roundTrip`: with slashes replaced and no rule for the edges of a name, nothing is lost.
-/

namespace ZClone.Encoder

open Utf8 List
open Paths (Text segments render)

def standard : MultiEncoder :=
  1#64 <<< Flag.slash.bit ||| 1#64 <<< Flag.ctl.bit ||| 1#64 <<< Flag.del.bit ||| 1#64 <<< Flag.dot.bit

/-- The loop over the parts of a path. -/
def convertParts (convert : Text → Text) (s : Text) : Text :=
  let parts := segments s
  let encoded := parts.map convert
  let changed := (encoded.zip parts).any fun (enc, p) => enc ≠ p
  if !changed then s else render encoded

section

variable (mask : MultiEncoder) (s : Text)

def fromStandardName : Text :=
  if mask = standard then s else encode mask (decode standard s)

def toStandardName : Text :=
  if mask = standard then s else encode standard (decode mask s)

def fromStandardPath : Text :=
  if mask = standard then s else convertParts (fromStandardName mask) s

def toStandardPath : Text :=
  if mask = standard then s else convertParts (toStandardName mask) s

end

/-! ## Names -/

/-- The flags for the first and the last character of a name. -/
def edgeFlags : List Flag :=
  [.leftSpace, .leftPeriod, .leftTilde, .leftCrLfHtVt, .rightSpace, .rightPeriod, .rightCrLfHtVt]

/-- A mask that replaces slashes and treats all characters of a name alike. -/
structure PathSafe (mask : MultiEncoder) : Prop where
  slash : has mask .slash = true
  edges : ∀ flag ∈ edgeFlags, has mask flag = false

theorem pathSafe_standard : PathSafe standard := ⟨by decide, by decide⟩

namespace PathSafe

variable {mask : MultiEncoder} (h : PathSafe mask)

include h

theorem ne_raw : mask ≠ encodeRaw := by
  rintro rfl
  exact absurd h.slash (by decide)

theorem enabled_rightRules : enabled mask rightRules = [] := by
  have hspace := h.edges .rightSpace (by decide)
  have hperiod := h.edges .rightPeriod (by decide)
  have hcrlf := h.edges .rightCrLfHtVt (by decide)
  simp [enabled, rightRules, hspace, hperiod, hcrlf]

theorem decode_encode (name : Text) : decode mask (encode mask name) = name := by
  apply (decode_encode_of_ne h.ne_raw name).mpr
  constructor
  · rintro ⟨-, ⟨hleft, -, -⟩ | ⟨-, hright, -⟩⟩
    · exact absurd hleft (by simp [h.edges .leftPeriod (by decide)])
    · exact absurd hright (by simp [h.edges .rightPeriod (by decide)])
  · rintro ⟨init, c, -, hc⟩
    simp [h.enabled_rightRules, replacement] at hc

theorem slash_notMem_encode (name : Text) : Paths.slash ∉ encode mask name := by
  have hacceptable : Acceptable mask (encode mask name) := by
    obtain ⟨-, text, hmem, -, henc⟩ | ⟨hne, henc⟩ := encode_cases h.ne_raw name
    · rw [henc]
      exact acceptable_dots mask hmem
    · rw [henc]
      exact acceptable_bytes_encodeName (stable_symbols name) hne
  intro hmem
  apply hacceptable.anywhere .slash h.slash '/' (by decide)
  obtain ⟨before, behind, heq⟩ := append_of_mem hmem
  rw [heq, show Paths.slash :: behind = encodeRune '/' ++ behind by rfl, symbols_append_char]
  simp

theorem toStandardName_encode (name : Text) : toStandardName mask (encode mask name) = encode standard name := by
  by_cases hmask : mask = standard
  · rw [toStandardName, if_pos hmask, hmask]
  · rw [toStandardName, if_neg hmask, h.decode_encode]

end PathSafe

theorem fromStandardName_encode (mask : MultiEncoder) (name : Text) :
    fromStandardName mask (encode standard name) = encode mask name := by
  by_cases hmask : mask = standard
  · rw [fromStandardName, if_pos hmask, hmask]
  · rw [fromStandardName, if_neg hmask, pathSafe_standard.decode_encode]

/-! ## Paths -/

theorem any_zip_map {α : Type} [DecidableEq α] (f : α → α) (xs : List α) :
    (((xs.map f).zip xs).any fun (y, x) => y ≠ x) = false ↔ xs.map f = xs := by
  induction xs with
  | nil => simp
  | cons x xs ih =>
    rw [map_cons, zip_cons_cons, any_cons, Bool.or_eq_false_iff, ih]
    simp

theorem convertParts_eq (convert : Text → Text) (s : Text) :
    convertParts convert s = render ((segments s).map convert) := by
  rw [convertParts]
  split
  · next hsame =>
    rw [(any_zip_map convert _).mp (by simpa using hsame), Paths.render_segments]
  · rfl

/-- Every segment of the path is a name in the standard encoding. -/
def StandardPath (p : Text) : Prop := ∀ x ∈ segments p, ∃ name, x = encode standard name

variable {p : Text}

theorem StandardPath.exists_names (h : StandardPath p) :
    ∃ names : List Text, names ≠ [] ∧ p = render (names.map (encode standard)) := by
  obtain ⟨names, hnames⟩ : segments p ∈ Set.range (map (encode standard)) := by
    rw [Set.range_list_map]
    exact fun x hx => (h x hx).imp fun _ => Eq.symm
  refine ⟨names, ?_, ?_⟩
  · rintro rfl
    exact splitOn_ne_nil _ _ hnames.symm
  · rw [hnames, Paths.render_segments]

variable {names : List Text}

namespace PathSafe

variable {mask : MultiEncoder} (h : PathSafe mask)

include h

theorem segments_render_encode (hne : names ≠ []) :
    segments (render (names.map (encode mask))) = names.map (encode mask) := by
  apply Paths.segments_render
  · simpa using hne
  · intro x hx
    obtain ⟨name, -, rfl⟩ := mem_map.mp hx
    exact h.slash_notMem_encode name

theorem toStandardPath_render (hne : names ≠ []) :
    toStandardPath mask (render (names.map (encode mask))) = render (names.map (encode standard)) := by
  by_cases hmask : mask = standard
  · rw [toStandardPath, if_pos hmask, hmask]
  · rw [toStandardPath, if_neg hmask, convertParts_eq, h.segments_render_encode hne, map_map]
    congr 2
    exact funext h.toStandardName_encode

end PathSafe

theorem fromStandardPath_render (mask : MultiEncoder) (hne : names ≠ []) :
    fromStandardPath mask (render (names.map (encode standard))) = render (names.map (encode mask)) := by
  by_cases hmask : mask = standard
  · rw [fromStandardPath, if_pos hmask, hmask]
  · rw [fromStandardPath, if_neg hmask, convertParts_eq, pathSafe_standard.segments_render_encode hne, map_map]
    congr 2
    exact funext (fromStandardName_encode mask)

namespace PathSafe

variable {mask : MultiEncoder} (h : PathSafe mask)

include h

theorem toStandardPath_fromStandardPath (hp : StandardPath p) : toStandardPath mask (fromStandardPath mask p) = p := by
  obtain ⟨names, hne, rfl⟩ := hp.exists_names
  rw [fromStandardPath_render mask hne, h.toStandardPath_render hne]

theorem length_segments_fromStandardPath (hp : StandardPath p) :
    (segments (fromStandardPath mask p)).length = (segments p).length := by
  obtain ⟨names, hne, rfl⟩ := hp.exists_names
  rw [fromStandardPath_render mask hne, h.segments_render_encode hne, pathSafe_standard.segments_render_encode hne,
    length_map, length_map]

end PathSafe

/-- A path of the standard encoding comes back from a backend that replaces slashes and treats all characters of a name
alike. It has as many segments there, and no other path of the standard encoding is written like it. -/
theorem standardPath_roundTrip {mask : MultiEncoder} (hslash : has mask .slash = true)
    (hedges : ∀ flag ∈ edgeFlags, has mask flag = false) :
    (∀ p, StandardPath p → toStandardPath mask (fromStandardPath mask p) = p ∧
      (segments (fromStandardPath mask p)).length = (segments p).length) ∧
      ∀ p q, StandardPath p → StandardPath q → p ≠ q → fromStandardPath mask p ≠ fromStandardPath mask q := by
  have hmask : PathSafe mask := ⟨hslash, hedges⟩
  refine ⟨fun p hp => ⟨hmask.toStandardPath_fromStandardPath hp, hmask.length_segments_fromStandardPath hp⟩, ?_⟩
  intro p q hp hq hne heq
  apply hne
  rw [← hmask.toStandardPath_fromStandardPath hp, heq, hmask.toStandardPath_fromStandardPath hq]

/-- A name of a colon and a fullwidth slash below a directory named by a dot, on a backend that replaces colons. -/
theorem standardPath_roundTrip_colon :
    let mask := 1#64 <<< Flag.slash.bit ||| 1#64 <<< Flag.colon.bit;
    let p := bytes (chars ['．', '/', ':', '／']);
    StandardPath p ∧ fromStandardPath mask p = bytes (chars ['.', '/', '：', '／']) ∧
      toStandardPath mask (fromStandardPath mask p) = p := by
  have hp : StandardPath (bytes (chars ['．', '/', ':', '／'])) := by
    have hsegments : segments (bytes (chars ['．', '/', ':', '／'])) =
        [encode standard (bytes (chars ['.'])), encode standard (bytes (chars [':', '/']))] := by decide +kernel
    intro x hx
    rw [hsegments] at hx
    simp only [mem_cons, not_mem_nil, or_false] at hx
    obtain rfl | rfl := hx
    · exact ⟨_, rfl⟩
    · exact ⟨_, rfl⟩
  exact ⟨hp, by decide +kernel, ((standardPath_roundTrip (by decide) (by decide)).1 _ hp).1⟩

end ZClone.Encoder
