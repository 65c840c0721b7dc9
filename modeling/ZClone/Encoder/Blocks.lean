import ZClone.Encoder.Basic

/-!
# What encoded names look like

- `Paired`: a table of rules replaces ASCII characters by one fixed function, `substitute`.
- `Encoded`: the ways in which `encode` writes one symbol.
- `encodeName_eq`, `decodeName_eq`: looking for the first rune that needs work changes nothing.
-/

namespace ZClone.Encoder

open Utf8 List

/-! ## Tables -/

/-- What replaces an ASCII character: the symbol for a control character or a space, or the fullwidth form. -/
def substitute (c : Char) : Char :=
  if c.toNat ≤ 0x20 then .ofNat (0x2400 + c.toNat)
  else if c.toNat = 0x7F then .ofNat 0x2421
  else .ofNat (0xFEE0 + c.toNat)

variable {c : Char} {mask : MultiEncoder} {out : List Char} {pairs : List (Char × Char)} {x : Symbol} {xs : List Symbol}

section

variable (h : c.toNat < 0x80)

include h

theorem toNat_substitute : (substitute c).toNat =
    if c.toNat ≤ 0x20 then 0x2400 + c.toNat else if c.toNat = 0x7F then 0x2421 else 0xFEE0 + c.toNat := by
  rw [substitute]
  split_ifs <;> refine toNat_ofNat_char ?_
  · exact .inl (by omega)
  · exact .inl (by decide)
  · exact .inr ⟨by omega, by omega⟩

/-- A replacement is no ASCII character, no quote and no replacement character. -/
theorem substitute_range : 0x2400 ≤ (substitute c).toNat ∧ (substitute c).toNat < 0xFFFD := by
  rw [toNat_substitute h]
  split_ifs <;> omega

theorem substitute_ne_quoteRune : substitute c ≠ quoteRune := by
  intro heq
  have hrange := (substitute_range h).1
  rw [heq] at hrange
  exact absurd hrange (by decide)

theorem substitute_ne_self : substitute c ≠ c := by
  intro heq
  have hrange := (substitute_range h).1
  rw [heq] at hrange
  omega

theorem substitute_ne_symbolNul (h0 : 0 < c.toNat) : substitute c ≠ symbolNul := by
  intro heq
  have hnat := congrArg Char.toNat heq
  rw [toNat_substitute h, show symbolNul.toNat = 0x2400 by decide] at hnat
  split_ifs at hnat <;> omega

end

theorem substitute_injective {d : Char} (hc : c.toNat < 0x80) (hd : d.toNat < 0x80) (h : substitute c = substitute d) :
    c = d := by
  have hnat := congrArg Char.toNat h
  rw [toNat_substitute hc, toNat_substitute hd] at hnat
  refine Char.ext (UInt32.toNat_inj.mp ?_)
  change c.toNat = d.toNat
  split_ifs at hnat <;> omega

/-- The table replaces ASCII characters other than NUL, each by its substitute. -/
def Paired (pairs : List (Char × Char)) : Prop :=
  ∀ p ∈ pairs, p.2 = substitute p.1 ∧ 0 < p.1.toNat ∧ p.1.toNat < 0x80

instance (pairs : List (Char × Char)) : Decidable (Paired pairs) := inferInstanceAs (Decidable (∀ p ∈ pairs, _))

theorem mem_enabled {rules : List Rule} {p : Char × Char} :
    p ∈ enabled mask rules ↔ ∃ rule ∈ rules, has mask rule.flag = true ∧ p ∈ rule.pairs := by
  simp [enabled, and_assoc]

theorem paired_enabled {rules : List Rule} (h : Paired (rules.flatMap Rule.pairs)) (mask : MultiEncoder) :
    Paired (enabled mask rules) := by
  intro p hp
  obtain ⟨rule, hrule, -, hmem⟩ := mem_enabled.mp hp
  exact h p (mem_flatMap.mpr ⟨rule, hrule, hmem⟩)

theorem paired_rules (mask : MultiEncoder) : Paired (enabled mask rules) := paired_enabled (by decide +kernel) mask

theorem paired_leftRules (mask : MultiEncoder) : Paired (enabled mask leftRules) :=
  paired_enabled (by decide +kernel) mask

theorem paired_rightRules (mask : MultiEncoder) : Paired (enabled mask rightRules) :=
  paired_enabled (by decide +kernel) mask

section

variable {r : Char}

theorem mem_of_replacement (h : replacement pairs c = some r) : (c, r) ∈ pairs := by
  obtain ⟨p, hfind, rfl⟩ := Option.map_eq_some_iff.mp h
  have hkey : p.1 = c := by simpa using find?_some hfind
  exact hkey ▸ mem_of_find?_eq_some hfind

theorem mem_of_original (h : original pairs r = some c) : (c, r) ∈ pairs := by
  obtain ⟨p, hfind, rfl⟩ := Option.map_eq_some_iff.mp h
  have hkey : p.2 = r := by simpa using find?_some hfind
  exact hkey ▸ mem_of_find?_eq_some hfind

theorem replacement_eq_none (h : replacement pairs c = none) : ∀ p ∈ pairs, p.1 ≠ c := by
  simpa [replacement, find?_eq_none] using h

theorem original_isNone_of (h : ∀ p ∈ pairs, p.2 ≠ r) : original pairs r = none := by
  simpa [original, find?_eq_none] using h

theorem encodeBy_eq_none (h : encodeBy pairs c = none) : replacement pairs c = none ∧ original pairs c = none := by
  rw [encodeBy] at h
  split at h
  next => cases h
  next hr => exact ⟨hr, Option.map_eq_none_iff.mp h⟩

section

variable (hpairs : Paired pairs)

include hpairs

/-- The original of a replacement is found again. -/
theorem original_of_mem (h : (c, r) ∈ pairs) : original pairs r = some c := by
  cases horig : original pairs r with
  | none =>
    have hne : ∀ p ∈ pairs, p.2 ≠ r := by simpa [original, find?_eq_none] using horig
    exact absurd rfl (hne _ h)
  | some d =>
    obtain ⟨hr, -, hc⟩ := hpairs _ h
    obtain ⟨hr', -, hd⟩ := hpairs _ (mem_of_original horig)
    have heq : substitute d = substitute c := hr'.symm.trans hr
    exact congrArg some (substitute_injective hd hc heq)

/-- Characters below the symbols are no replacements. -/
theorem original_of_lt (h : r.toNat ≤ 0x2400) : original pairs r = none := by
  refine original_isNone_of fun p hp heq => ?_
  obtain ⟨hsub, hpos, hlt⟩ := hpairs p hp
  have hrange := toNat_substitute hlt
  rw [← hsub, heq] at hrange
  split_ifs at hrange <;> omega

/-- What a rule makes of a character. -/
theorem encodeBy_cases (h : encodeBy pairs c = some out) :
    ((c, substitute c) ∈ pairs ∧ out = [substitute c]) ∨ ((original pairs c).isSome ∧ out = [quoteRune, c]) := by
  rw [encodeBy] at h
  split at h
  next r hr =>
    have hmem := mem_of_replacement hr
    have hsub : r = substitute c := (hpairs _ hmem).1
    cases h
    subst hsub
    exact .inl ⟨hmem, rfl⟩
  next =>
    obtain ⟨plain, hplain, rfl⟩ := Option.map_eq_some_iff.mp h
    exact .inr ⟨by rw [hplain]; rfl, rfl⟩

/-- A character that no rule takes is not read back from its substitute. -/
theorem original_substitute_of_none (hc : c.toNat < 0x80) (h : encodeBy pairs c = none) :
    original pairs (substitute c) = none := by
  refine original_isNone_of fun p hp heq => ?_
  obtain ⟨hsub, -, hlt⟩ := hpairs p hp
  have hpc : p.1 = c := substitute_injective hlt hc (hsub.symm.trans heq)
  exact replacement_eq_none (encodeBy_eq_none h).1 p hp hpc

end

end

/-! ## Encoded symbols -/

/-- The ways to write a symbol. -/
inductive Encoded : Symbol → List Symbol → Prop where
  | same (x : Symbol) (h : x ≠ .char quoteRune) : Encoded x [x]
  | replaced (c : Char) (h : c.toNat < 0x80) : Encoded (.char c) [.char (substitute c)]
  | quoted (c : Char) : Encoded (.char c) [.char quoteRune, .char c]
  | hex (b : UInt8) : Encoded (.stray b) (chars (quotedByte b))

theorem encoded_encodeBy (hpairs : Paired pairs) (h : encodeBy pairs c = some out) : Encoded (.char c) (chars out) := by
  obtain ⟨hmem, rfl⟩ | ⟨-, rfl⟩ := encodeBy_cases hpairs h
  · exact .replaced c (hpairs _ hmem).2.2
  · exact .quoted c

theorem encoded_encodeSymbol (mask : MultiEncoder) (x : Symbol) : Encoded x (encodeSymbol mask x) := by
  cases x with rw [encodeSymbol]
  | stray b =>
    split
    · exact .hex b
    · exact .same _ nofun
  | char c =>
    split_ifs with hnul hquote
    · subst hnul
      exact .replaced _ (by decide)
    · exact .quoted c
    · cases hby : encodeBy (enabled mask rules) c with
      | none =>
        refine .same _ fun heq => hquote (.inr ?_)
        cases heq
        rfl
      | some out => exact encoded_encodeBy (paired_rules mask) hby

theorem encoded_encodeEdge (hpairs : Paired pairs) (h : encodeEdge pairs x = some out) : Encoded x (chars out) := by
  cases x with
  | stray b => cases h
  | char c => exact encoded_encodeBy hpairs h

/-- The second list writes the symbols of the first one after the other. -/
inductive Written : List Symbol → List Symbol → Prop where
  | nil : Written [] []
  | cons {x : Symbol} {xs out ys : List Symbol} (head : Encoded x out) (tail : Written xs ys) : Written (x :: xs)
      (out ++ ys)

theorem Written.cons_inv {zs : List Symbol} (h : Written (x :: xs) zs) :
    ∃ out ys, zs = out ++ ys ∧ Encoded x out ∧ Written xs ys := by
  cases h with
  | cons head tail => exact ⟨_, _, rfl, head, tail⟩

theorem Written.append {ys out out' : List Symbol} (h : Written xs out) (h' : Written ys out') :
    Written (xs ++ ys) (out ++ out') := by
  induction h with
  | nil => exact h'
  | cons head _ ih =>
    rw [append_assoc]
    exact .cons head ih

theorem written_flatMap (mask : MultiEncoder) : ∀ xs : List Symbol, Written xs (xs.flatMap (encodeSymbol mask))
  | [] => .nil
  | x :: xs => .cons (encoded_encodeSymbol mask x) (written_flatMap mask xs)

/-! ## The edges of a name -/

/-- The first symbol with its replacement, if a rule takes it. -/
theorem encodeLeft_cases (mask : MultiEncoder) (xs : List Symbol) :
    (∃ x rest out, xs = x :: rest ∧ encodeEdge (enabled mask leftRules) x = some out ∧
      encodeLeft mask xs = (out, rest)) ∨
      ((∀ x, xs.head? = some x → encodeEdge (enabled mask leftRules) x = none) ∧ encodeLeft mask xs = ([], xs)) := by
  cases xs with
  | nil => exact .inr ⟨nofun, rfl⟩
  | cons x rest =>
    cases hedge : encodeEdge (enabled mask leftRules) x with
    | some out => exact .inl ⟨x, rest, out, rfl, hedge, by rw [encodeLeft, hedge]⟩
    | none =>
      refine .inr ⟨fun y hy => ?_, by rw [encodeLeft, hedge]⟩
      cases hy
      exact hedge

/-- The last symbol with its replacement, if a rule takes it. -/
theorem encodeRight_cases (mask : MultiEncoder) (xs : List Symbol) :
    (∃ init x out, xs = init ++ [x] ∧ encodeEdge (enabled mask rightRules) x = some out ∧
        encodeRight mask xs = (init, out)) ∨
      ((∀ init x, xs = init ++ [x] → encodeEdge (enabled mask rightRules) x = none) ∧
        encodeRight mask xs = (xs, [])) := by
  rcases eq_nil_or_concat' xs with rfl | ⟨init, x, rfl⟩
  · exact .inr ⟨fun init x h => absurd h (by simp), rfl⟩
  · rw [encodeRight, getLast?_concat, Option.bind_some, dropLast_concat]
    cases hedge : encodeEdge (enabled mask rightRules) x with
    | some out => exact .inl ⟨init, x, out, rfl, hedge, rfl⟩
    | none =>
      refine .inr ⟨fun init' y h => ?_, rfl⟩
      rw [← (append_inj_right' h rfl |> singleton_inj.mp)]
      exact hedge

theorem encodeEdge_ne_nil (hpairs : Paired pairs) (h : encodeEdge pairs x = some out) : out ≠ [] := by
  cases x with
  | stray b => cases h
  | char c => obtain ⟨-, rfl⟩ | ⟨-, rfl⟩ := encodeBy_cases hpairs h <;> simp

/-! ## Without the search for the first rune -/

theorem encodeSymbol_of_not_needsEncoding (h : needsEncoding mask x = false) : encodeSymbol mask x = [x] := by
  cases x with
  | stray b => cases h
  | char c =>
    simp only [needsEncoding, Bool.or_eq_false_iff, decide_eq_false_iff_not, Option.isSome_eq_false_iff,
      Option.isNone_iff_eq_none] at h
    obtain ⟨⟨⟨⟨hnul, hsym⟩, hquote⟩, -⟩, hby⟩ := h
    rw [encodeSymbol, if_neg hnul, if_neg (by simp [hsym, hquote]), hby]
    rfl

theorem flatMap_encodeSymbol_of_all (h : ∀ x ∈ xs, needsEncoding mask x = false) :
    xs.flatMap (encodeSymbol mask) = xs := by
  induction xs with
  | nil => rfl
  | cons x xs ih =>
    rw [flatMap_cons, encodeSymbol_of_not_needsEncoding (h x mem_cons_self),
      ih fun y hy => h y (mem_cons_of_mem x hy)]
    rfl

theorem not_of_mem_take_findIdx {p : Symbol → Bool} {index : Nat} (h : xs.findIdx? p = some index) :
    ∀ x ∈ xs.take index, p x = false := by
  intro x hx
  obtain ⟨i, hi, rfl⟩ := mem_take_iff_getElem.mp hx
  obtain ⟨_, _, hbefore⟩ := findIdx?_eq_some_iff_getElem.mp h
  simpa using hbefore i (by omega)

theorem encodeName_eq (mask : MultiEncoder) (xs : List Symbol) : encodeName mask xs =
    chars (encodeLeft mask xs).1 ++ (encodeRight mask (encodeLeft mask xs).2).1.flatMap (encodeSymbol mask) ++
      chars (encodeRight mask (encodeLeft mask xs).2).2 := by
  rw [encodeName]
  generalize encodeRight mask (encodeLeft mask xs).2 = right
  split
  next hnil =>
    rw [hnil.1, hnil.2]
    change _ = [] ++ right.1.flatMap (encodeSymbol mask) ++ []
    rw [nil_append, append_nil]
    cases hfind : right.1.findIdx? (needsEncoding mask) with
    | none => exact (flatMap_encodeSymbol_of_all (findIdx?_eq_none_iff.mp hfind)).symm
    | some index =>
      conv_rhs => rw [← take_append_drop index right.1]
      rw [flatMap_append, flatMap_encodeSymbol_of_all (not_of_mem_take_findIdx hfind)]
  next => rfl

theorem decodeLoop_of_not_needsDecoding (h : needsDecoding mask x = false)
    (rest : List Symbol) : decodeLoop mask false (x :: rest) = x.bytes ++ decodeLoop mask false rest := by
  cases x with
  | stray b => rfl
  | char c =>
    simp only [needsDecoding, Bool.or_eq_false_iff, decide_eq_false_iff_not, Option.isSome_eq_false_iff,
      Option.isNone_iff_eq_none] at h
    obtain ⟨⟨hsym, hquote⟩, horig⟩ := h
    rw [decodeLoop, if_neg hsym, if_neg hquote, horig]
    rfl

theorem decodeLoop_append_of_all (h : ∀ x ∈ xs, needsDecoding mask x = false)
    (rest : List Symbol) : decodeLoop mask false (xs ++ rest) = bytes xs ++ decodeLoop mask false rest := by
  induction xs with
  | nil => rfl
  | cons x xs ih =>
    rw [cons_append, decodeLoop_of_not_needsDecoding (h x mem_cons_self),
      ih fun y hy => h y (mem_cons_of_mem x hy), ← append_assoc]
    rfl

theorem decodeName_eq (mask : MultiEncoder) (xs : List Symbol) : decodeName mask xs =
    bytes (chars (decodeLeft mask xs).1) ++ decodeLoop mask false (decodeRight mask (decodeLeft mask xs).2).1 ++
      bytes (chars (decodeRight mask (decodeLeft mask xs).2).2) := by
  rw [decodeName]
  generalize decodeRight mask (decodeLeft mask xs).2 = right
  split
  next hnil =>
    rw [hnil.1, hnil.2]
    change _ = [] ++ decodeLoop mask false right.1 ++ []
    rw [nil_append, append_nil]
    cases hfind : right.1.findIdx? (needsDecoding mask) with
    | none =>
      have hall := decodeLoop_append_of_all (findIdx?_eq_none_iff.mp hfind) []
      rw [append_nil] at hall
      rw [hall]
      exact (append_nil _).symm
    | some index =>
      conv_rhs => rw [← take_append_drop index right.1]
      exact (decodeLoop_append_of_all (not_of_mem_take_findIdx hfind) _).symm
  next => rfl

end ZClone.Encoder
