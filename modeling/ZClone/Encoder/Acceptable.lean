import ZClone.Encoder.RoundTrip

/-!
# Encoded names are acceptable

`Flag.anywhere`, `Flag.first` and `Flag.last` are the characters each flag is for, as the constants of the source
describe them. `acceptable_encode`: no encoded name has one where it is reserved.
-/

namespace ZClone.Encoder

open Utf8 List

/-! ## What the flags reserve -/

/-- The characters that must not occur. -/
def Flag.anywhere : Flag → List Char
  | .slash => ['/']
  | .ltGt => ['<', '>']
  | .doubleQuote => [.ofNat 0x22]
  | .singleQuote => [.ofNat 0x27]
  | .backQuote => [.ofNat 0x60]
  | .dollar => ['$']
  | .colon => [':']
  | .question => ['?']
  | .asterisk => ['*']
  | .pipe => ['|']
  | .hash => ['#']
  | .percent => ['%']
  | .backSlash => ['\\']
  | .crLf => ['\x0d', '\x0a']
  | .del => ['\x7f']
  | .ctl => (List.range' 0x01 0x1F).map .ofNat
  | .squareBracket => ['[', ']']
  | .semicolon => [';']
  | .exclamation => ['!']
  | _ => []

/-- The characters that must not come first. -/
def Flag.first : Flag → List Char
  | .leftSpace => [' ']
  | .leftPeriod => ['.']
  | .leftTilde => ['~']
  | .leftCrLfHtVt => ['\x0d', '\x0a', '\x09', '\x0b']
  | _ => []

/-- The characters that must not come last. -/
def Flag.last : Flag → List Char
  | .rightSpace => [' ']
  | .rightPeriod => ['.']
  | .rightCrLfHtVt => ['\x0d', '\x0a', '\x09', '\x0b']
  | _ => []

/-- The name is acceptable to a backend with these flags. -/
structure Acceptable (mask : MultiEncoder) (t : List UInt8) : Prop where
  nul : .char '\x00' ∉ symbols t
  anywhere : ∀ flag, has mask flag = true → ∀ c ∈ flag.anywhere, .char c ∉ symbols t
  dot : has mask .dot = true → symbols t ≠ chars ['.'] ∧ symbols t ≠ chars ['.', '.']
  first : ∀ flag, has mask flag = true → ∀ c ∈ flag.first, (symbols t).head? ≠ some (.char c)
  last : ∀ flag, has mask flag = true → ∀ c ∈ flag.last, (symbols t).getLast? ≠ some (.char c)
  utf8 : has mask .invalidUtf8 = true → Valid (symbols t)

/-- The rules have a replacement for every character of a list of each flag. -/
def Handles (rules : List Rule) (reserved : Flag → List Char) : Prop :=
  ∀ flag, ∀ c ∈ reserved flag, ∃ rule ∈ rules, rule.flag = flag ∧ ∃ p ∈ rule.pairs, p.1 = c

variable {mask : MultiEncoder} {pairs : List (Char × Char)} {x : Symbol} {d c : Char} {xs out : List Symbol}

theorem Handles.mem_enabled {rules : List Rule} {reserved : Flag → List Char} (h : Handles rules reserved)
    {flag : Flag} (hflag : has mask flag = true) (hc : c ∈ reserved flag) : ∃ p ∈ enabled mask rules, p.1 = c := by
  obtain ⟨rule, hrule, rfl, p, hp, rfl⟩ := h flag c hc
  exact ⟨p, Encoder.mem_enabled.mpr ⟨rule, hrule, hflag, hp⟩, rfl⟩

theorem handles_anywhere : Handles rules Flag.anywhere := by
  intro flag
  refine forall_mem_of_all ?_
  cases flag <;> decide +kernel

theorem handles_first : Handles leftRules Flag.first := by
  intro flag
  refine forall_mem_of_all ?_
  cases flag <;> decide

theorem handles_last : Handles rightRules Flag.last := by
  intro flag
  refine forall_mem_of_all ?_
  cases flag <;> decide

/-! ## Characters -/

/-- What a rule of an edge writes is not ASCII. -/
theorem le_of_mem_encodeEdge (hpairs : Paired pairs) {out : List Char}
    (h : encodeEdge pairs x = some out) : ∀ d ∈ out, 0x80 ≤ d.toNat := by
  have hquote : 0x80 ≤ quoteRune.toNat := by decide
  obtain ⟨c, rfl, ⟨hmem, rfl⟩ | ⟨horig, rfl⟩⟩ := char_of_encodeEdge hpairs h
  · intro d hd
    have hrange := substitute_range (hpairs _ hmem).2.2
    rw [mem_singleton.mp hd]
    exact le_trans (by decide) hrange.1
  · intro d hd
    have hc : 0x80 ≤ c.toNat := by
      by_contra hlt
      rw [original_of_lt hpairs (by omega)] at horig
      cases horig
    obtain rfl | hd := mem_cons.mp hd
    · exact hquote
    · rw [mem_singleton.mp hd]
      exact hc

/-- A character that `encode` may write: not NUL and not reserved. -/
def Clean (mask : MultiEncoder) (d : Char) : Prop := d ≠ '\x00' ∧ ∀ p ∈ enabled mask rules, p.1 ≠ d

theorem clean_of_le (mask : MultiEncoder) (h : 0x80 ≤ d.toNat) : Clean mask d := by
  refine ⟨fun heq => ?_, fun p hp heq => ?_⟩
  · rw [heq] at h
    exact absurd h (by decide)
  · have hlt := (paired_rules mask p hp).2.2
    rw [heq] at hlt
    omega

theorem clean_hexDigit (mask : MultiEncoder) {n : Nat} (h : n < 16) : Clean mask (hexDigit n) := by
  have habsent : ∀ n < 16, hexDigit n ≠ '\x00' ∧ ∀ p ∈ rules.flatMap Rule.pairs, p.1 ≠ hexDigit n := by decide +kernel
  refine ⟨(habsent n h).1, fun p hp => ?_⟩
  obtain ⟨rule, hrule, -, hmem⟩ := mem_enabled.mp hp
  exact (habsent n h).2 p (mem_flatMap.mpr ⟨rule, hrule, hmem⟩)

theorem clean_of_mem_encodeSymbol (h : .char d ∈ encodeSymbol mask x) : Clean mask d := by
  cases x with
  | stray b =>
    have hlt : b.toNat < 256 := b.toNat_lt
    rw [encodeSymbol] at h
    split_ifs at h with hutf8
    · simp only [chars, quotedByte, map_cons, map_nil, mem_cons, not_mem_nil, or_false,
        Symbol.char.injEq] at h
      obtain rfl | rfl | rfl := h
      · exact clean_of_le mask (by decide)
      · exact clean_hexDigit mask (by omega)
      · exact clean_hexDigit mask (by omega)
    · cases mem_singleton.mp h
  | char c =>
    rw [encodeSymbol] at h
    obtain ⟨e, he, heq⟩ :
    ∃ e, e ∈ (if c = '\x00' then [symbolNul] else if c = symbolNul ∨ c = quoteRune then [quoteRune, c]
        else (encodeBy (enabled mask rules) c).getD [c]) ∧ Symbol.char e = .char d := by
      split_ifs at h ⊢ <;> exact mem_map.mp h
    cases heq
    split_ifs at he with hnul hquote
    · rw [mem_singleton.mp he]
      exact clean_of_le mask (by decide)
    · refine clean_of_le mask ?_
      obtain rfl | he := mem_cons.mp he
      · decide
      · rw [mem_singleton.mp he]
        obtain rfl | rfl := hquote <;> decide
    · cases hby : encodeBy (enabled mask rules) c with
      | none =>
        rw [hby] at he
        rw [mem_singleton.mp he]
        exact ⟨hnul, replacement_eq_none (encodeBy_eq_none hby).1⟩
      | some out =>
        rw [hby] at he
        exact clean_of_le mask (le_of_mem_encodeEdge (paired_rules mask) (x := .char c) hby d he)

theorem le_of_mem_encodeLeft (h : d ∈ (encodeLeft mask xs).1) : 0x80 ≤ d.toNat := by
  obtain ⟨x, rest, out, rfl, hedge, heq⟩ | ⟨-, heq⟩ := encodeLeft_cases mask xs
  · rw [heq] at h
    exact le_of_mem_encodeEdge (paired_leftRules mask) hedge d h
  · rw [heq] at h
    cases h

theorem le_of_mem_encodeRight (h : d ∈ (encodeRight mask xs).2) : 0x80 ≤ d.toNat := by
  obtain ⟨init, x, out, rfl, hedge, heq⟩ | ⟨-, heq⟩ := encodeRight_cases mask xs
  · rw [heq] at h
    exact le_of_mem_encodeEdge (paired_rightRules mask) hedge d h
  · rw [heq] at h
    cases h

theorem mem_chars {text : List Char} : .char d ∈ chars text ↔ d ∈ text := by simp [chars]

theorem clean_of_mem_encodeName (h : .char d ∈ encodeName mask xs) : Clean mask d := by
  rw [encodeName_eq, mem_append, mem_append, mem_chars, mem_chars, mem_flatMap] at h
  obtain (h | ⟨x, -, h⟩) | h := h
  · exact clean_of_le mask (le_of_mem_encodeLeft h)
  · exact clean_of_mem_encodeSymbol h
  · exact clean_of_le mask (le_of_mem_encodeRight h)

/-! ## Edges -/

theorem substitute_ne (hc : c.toNat < 0x80) (hd : d.toNat < 0x80) : substitute c ≠ d := by
  rintro rfl
  have hrange := substitute_range hc
  omega

/-- A symbol that no rule of an edge takes is not written with a reserved character first. -/
theorem Encoded.head_ne (hpairs : Paired pairs)
    (hout : Encoded x out) (h : encodeEdge pairs x = none) : ∀ p ∈ pairs, out.head? ≠ some (.char p.1) := by
  intro p hp heq
  obtain ⟨-, -, hlt⟩ := hpairs p hp
  have hquote : p.1 ≠ quoteRune := ne_of_ascii hlt (by decide)
  cases hout with
  | same =>
    cases heq
    exact replacement_eq_none (encodeBy_eq_none h).1 p hp rfl
  | replaced c hc => exact substitute_ne hc hlt (Symbol.char.inj (Option.some.inj heq))
  | quoted c | hex b => exact hquote (Symbol.char.inj (Option.some.inj heq)).symm

/-- Nor with one last, if no digit is reserved. -/
theorem Encoded.getLast_ne (hpairs : Paired pairs) (hdigits : ∀ p ∈ pairs, p.1.toNat < 0x30)
    (hout : Encoded x out) (h : encodeEdge pairs x = none) : ∀ p ∈ pairs, out.getLast? ≠ some (.char p.1) := by
  intro p hp heq
  obtain ⟨-, -, hlt⟩ := hpairs p hp
  cases hout with
  | same =>
    cases heq
    exact replacement_eq_none (encodeBy_eq_none h).1 p hp rfl
  | replaced c hc => exact substitute_ne hc hlt (Symbol.char.inj (Option.some.inj heq))
  | quoted c => exact replacement_eq_none (encodeBy_eq_none h).1 p hp (Symbol.char.inj (Option.some.inj heq)).symm
  | hex b =>
    have hdigit : hexDigit (b.toNat % 16) = p.1 := Symbol.char.inj (Option.some.inj heq)
    have hnat := @toNat_hexDigit (b.toNat % 16) (by omega)
    have hp30 := hdigits p hp
    rw [hdigit, Hex.code] at hnat
    split at hnat <;> omega

theorem Encoded.ne_nil (h : Encoded x out) : out ≠ [] := by
  obtain ⟨init, y, rfl, -⟩ := h.getLast
  simp

theorem head_encodeName (mask : MultiEncoder) (xs : List Symbol) :
    ∀ p ∈ enabled mask leftRules, (encodeName mask xs).head? ≠ some (.char p.1) := by
  intro p hp heq
  have hpairs := paired_leftRules mask
  rw [encodeName_eq_tail] at heq
  obtain ⟨x, rest, out, rfl, hedge, hleft⟩ | ⟨hnone, hleft⟩ := encodeLeft_cases mask xs
  · rw [hleft] at heq
    obtain ⟨d, out', rfl⟩ := exists_cons_of_ne_nil (encodeEdge_ne_nil hpairs hedge)
    have hd : d = p.1 := Symbol.char.inj (Option.some.inj heq)
    have hle := le_of_mem_encodeEdge hpairs hedge d mem_cons_self
    rw [hd] at hle
    exact absurd (hpairs p hp).2.2 (by omega)
  · rw [hleft] at heq
    change (encodeTail mask xs).head? = _ at heq
    cases xs with
    | nil => cases heq
    | cons x rest =>
      obtain ⟨out, ys, hout, head, -⟩ := (written_encodeTail mask (x :: rest)).cons_inv
      rw [hout, head?_append_of_ne_nil _ head.ne_nil] at heq
      exact head.head_ne hpairs (hnone x rfl) p hp heq

theorem rightRules_lt (mask : MultiEncoder) : ∀ p ∈ enabled mask rightRules, p.1.toNat < 0x30 := by
  have hall : ∀ p ∈ rightRules.flatMap Rule.pairs, p.1.toNat < 0x30 := by decide
  intro p hp
  obtain ⟨rule, hrule, -, hmem⟩ := mem_enabled.mp hp
  exact hall p (mem_flatMap.mpr ⟨rule, hrule, hmem⟩)

theorem getLast_encodeName (mask : MultiEncoder) (xs : List Symbol) :
    ∀ p ∈ enabled mask rightRules, (encodeName mask xs).getLast? ≠ some (.char p.1) := by
  intro p hp heq
  have hpairs := paired_rightRules mask
  have hlt := (hpairs p hp).2.2
  rw [encodeName_eq] at heq
  obtain ⟨init, x, out, -, hedge, hright⟩ | ⟨hnone, hright⟩ := encodeRight_cases mask (encodeLeft mask xs).2
  · -- the last character was replaced
    rw [hright] at heq
    have hne : chars out ≠ [] := fun h => encodeEdge_ne_nil hpairs hedge (map_eq_nil_iff.mp h)
    rw [getLast?_append_of_ne_nil _ hne] at heq
    have hle := le_of_mem_encodeEdge hpairs hedge p.1 (mem_chars.mp (mem_of_getLast? heq))
    omega
  · rw [hright] at heq
    change (_ ++ _ ++ []).getLast? = _ at heq
    rw [append_nil] at heq
    rcases eq_nil_or_concat' (encodeLeft mask xs).2 with hnil | ⟨init, x, hlast⟩
    · -- the name is one character, and it was replaced as the first
      rw [hnil] at heq
      change (_ ++ []).getLast? = _ at heq
      rw [append_nil] at heq
      have hle := le_of_mem_encodeLeft (mem_chars.mp (mem_of_getLast? heq))
      omega
    · have hout := encoded_encodeSymbol mask x
      have hedge := hnone init x hlast
      rw [hlast, flatMap_append, flatMap_singleton, ← append_assoc,
        getLast?_append_of_ne_nil _ hout.ne_nil] at heq
      exact hout.getLast_ne hpairs (rightRules_lt mask) hedge p hp heq

/-! ## Dots -/

/-- A full stop stands for itself. -/
theorem Written.of_period {rest : List Symbol} (h : Written xs (.char '.' :: rest)) :
    ∃ xs', xs = .char '.' :: xs' ∧ Written xs' rest := by
  obtain ⟨c, xs', rfl, rfl | ⟨hc, hsub⟩, htail⟩ := h.of_char (by decide)
  · exact ⟨xs', rfl, htail⟩
  · exact absurd (hsub ▸ (substitute_range hc).1) (by decide)

theorem encodeName_ne_dots (hne : ∀ name ∈ dotNames, chars name.1 ≠ xs) :
    encodeName mask xs ≠ chars ['.'] ∧ encodeName mask xs ≠ chars ['.', '.'] := by
  have hwritten := written_encodeName mask xs
  constructor
  · intro heq
    rw [heq] at hwritten
    obtain ⟨xs', rfl, htail⟩ := Written.of_period hwritten
    obtain rfl := htail.of_nil
    exact hne (['.'], ['．']) (by decide) rfl
  · intro heq
    rw [heq] at hwritten
    obtain ⟨xs', rfl, htail⟩ := Written.of_period hwritten
    obtain ⟨xs'', rfl, htail'⟩ := Written.of_period htail
    obtain rfl := htail'.of_nil
    exact hne (['.', '.'], ['．', '．']) (by decide) rfl

/-! ## Acceptable names -/

theorem acceptable_bytes_encodeName (hxs : Stable xs)
    (hne : has mask .dot = true → ∀ name ∈ dotNames, chars name.1 ≠ xs) :
    Acceptable mask (bytes (encodeName mask xs)) := by
  have hsymbols := symbols_bytes (stable_encodeName mask hxs)
  refine ⟨?_, ?_, ?_, ?_, ?_, ?_⟩ <;> rw [hsymbols]
  · exact fun h => (clean_of_mem_encodeName h).1 rfl
  · intro flag hflag c hc h
    obtain ⟨p, hp, rfl⟩ := handles_anywhere.mem_enabled hflag hc
    exact (clean_of_mem_encodeName h).2 p hp rfl
  · exact fun hdot => encodeName_ne_dots (hne hdot)
  · intro flag hflag c hc
    obtain ⟨p, hp, rfl⟩ := handles_first.mem_enabled hflag hc
    exact head_encodeName mask xs p hp
  · intro flag hflag c hc
    obtain ⟨p, hp, rfl⟩ := handles_last.mem_enabled hflag hc
    exact getLast_encodeName mask xs p hp
  · exact fun hutf8 => valid_encodeName hutf8 xs

theorem acceptable_dots (mask : MultiEncoder) {name : List Char × List Char} (h : name ∈ dotNames) :
    Acceptable mask (bytes (chars name.2)) := by
  have hascii : ∀ name ∈ dotNames, ∀ d ∈ name.2, 0x80 ≤ d.toNat := by
    simp [dotNames, quoteRune]
  have hsymbols := symbols_bytes (valid_chars name.2).stable
  have hmem : ∀ d, .char d ∈ chars name.2 → 0x80 ≤ d.toNat := fun d hd => hascii name h d (mem_chars.mp hd)
  refine ⟨?_, ?_, ?_, ?_, ?_, ?_⟩ <;> rw [hsymbols]
  · exact fun hnul => absurd (hmem _ hnul) (by decide)
  · intro flag hflag c hc hmem'
    obtain ⟨p, hp, rfl⟩ := handles_anywhere.mem_enabled hflag hc
    exact absurd (paired_rules mask p hp).2.2 (by have := hmem _ hmem'; omega)
  · intro _
    have hne : ∀ name ∈ dotNames, chars name.2 ≠ chars ['.'] ∧ chars name.2 ≠ chars ['.', '.'] := by decide
    exact hne name h
  · intro flag hflag c hc heq
    obtain ⟨p, hp, rfl⟩ := handles_first.mem_enabled hflag hc
    have hle := hmem _ (mem_of_head? heq)
    exact absurd (paired_leftRules mask p hp).2.2 (by omega)
  · intro flag hflag c hc heq
    obtain ⟨p, hp, rfl⟩ := handles_last.mem_enabled hflag hc
    have hle := hmem _ (mem_of_getLast? heq)
    exact absurd (paired_rightRules mask p hp).2.2 (by omega)
  · exact fun _ => valid_chars name.2

/-- What `Encode` returns is acceptable to the backend that the flags describe. -/
theorem acceptable_encode {mask : MultiEncoder} (hraw : mask ≠ encodeRaw) (s : List UInt8) :
    Acceptable mask (encode mask s) := by
  obtain ⟨-, name, hmem, -, henc⟩ | ⟨hne, henc⟩ := encode_cases hraw s
  · rw [henc]
    exact acceptable_dots mask hmem
  · rw [henc]
    exact acceptable_bytes_encodeName (stable_symbols s) hne

/-- A space, taken by the rules of both edges. -/
theorem acceptable_encode_space :
    let mask := 1#64 <<< Flag.leftSpace.bit ||| 1#64 <<< Flag.rightSpace.bit;
    mask ≠ encodeRaw ∧ Acceptable mask (encode mask [0x20]) ∧ encode mask [0x20] = bytes (chars ['␠']) :=
  ⟨by decide, acceptable_encode (by decide) _, by decide +kernel⟩

end ZClone.Encoder
