import ZClone.Encoder.Blocks

/-!
# Decoding an encoded name

- `decodeLoop_flatMap`: the loops are inverse to each other.
- `decodeLeft_of_some`, `decodeTail_encodeTail`: so are the edges, but for a quote before a replaced last character.
- `decode_encode_iff`: the names that are not recovered.
-/

namespace ZClone.Encoder

open Utf8 List

/-! ## The loop -/

variable {n : Nat}

theorem hexCode_lt (h : n < 16) : Hex.code 0x41 n < 0x80 := by
  rw [Hex.code]
  split <;> omega

theorem toNat_hexDigit (h : n < 16) : (hexDigit n).toNat = Hex.code 0x41 n :=
  toNat_ofNat_char (.inl ((hexCode_lt h).trans (by decide)))

theorem encodeRune_hexDigit (h : n < 16) : encodeRune (hexDigit n) = [.ofNat (Hex.code 0x41 n)] := by
  rw [encodeRune, toNat_hexDigit h, if_pos (hexCode_lt h)]

theorem hexValue_hexCode (h : n < 16) : hexValue (.ofNat (Hex.code 0x41 n)) = some n := by
  rw [hexValue, toNat_ofNat ((hexCode_lt h).trans (by decide)), Hex.code]
  by_cases h10 : n < 10
  · rw [if_pos h10, if_pos (by omega)]
    exact congrArg some (by omega)
  · rw [if_neg h10, if_neg (by omega), if_pos (by omega)]
    exact congrArg some (by omega)

theorem unquotedByte_quotedByte (b : UInt8) (rest : List Symbol) :
    unquotedByte (bytes (chars (quotedByte b).tail ++ rest)) = some b := by
  have hlt : b.toNat < 256 := b.toNat_lt
  rw [quotedByte, tail_cons]
  change unquotedByte (encodeRune _ ++ (encodeRune _ ++ bytes rest)) = _
  rw [encodeRune_hexDigit (by omega), encodeRune_hexDigit (by omega)]
  simp only [singleton_append, unquotedByte]
  rw [hexValue_hexCode (by omega), hexValue_hexCode (by omega)]
  exact congrArg some (ofNat_eq (by omega))

/-- The digits of a byte are ASCII. -/
theorem hexDigit_lt (b : UInt8) : (hexDigit (b.toNat / 16)).toNat < 0x80 ∧ (hexDigit (b.toNat % 16)).toNat < 0x80 := by
  have hlt : b.toNat < 256 := b.toNat_lt
  rw [toNat_hexDigit (by omega), toNat_hexDigit (by omega)]
  exact ⟨hexCode_lt (by omega), hexCode_lt (by omega)⟩

variable {c d : Char}

theorem ne_of_ascii (hc : c.toNat < 0x80) (hd : 0x80 ≤ d.toNat) : c ≠ d := by
  intro h
  rw [h] at hc
  omega

variable {mask : MultiEncoder} {x : Symbol} {xs out rest : List Symbol} {name : List Char × List Char}

/-- Behind a quote, two digits are one byte. -/
theorem decodeLoop_hex (hutf8 : has mask .invalidUtf8 = true) (b : UInt8) (rest : List Symbol) :
    decodeLoop mask false (chars (quotedByte b) ++ rest) = b :: decodeLoop mask false rest := by
  have hdigit := (hexDigit_lt b).1
  have hbyte := unquotedByte_quotedByte b rest
  change unquotedByte (bytes (.char (hexDigit (b.toNat / 16)) :: .char (hexDigit (b.toNat % 16)) :: rest)) = _ at hbyte
  change decodeLoop mask false
    (.char quoteRune :: .char (hexDigit (b.toNat / 16)) :: .char (hexDigit (b.toNat % 16)) :: rest) = _
  rw [decodeLoop, if_neg (by decide), if_pos rfl, if_neg (by decide), decodeLoop,
    if_neg (ne_of_ascii hdigit (by decide)), if_neg (ne_of_ascii hdigit (by decide)),
    original_of_lt (paired_rules mask) (by omega), hutf8, Bool.and_self, if_pos rfl]
  rw [hbyte]

/-- What `encode` quotes is read back as it is. -/
theorem decodeLoop_quoted
    (h : c = symbolNul ∨ c = quoteRune ∨ (original (enabled mask rules) c).isSome) (rest : List Symbol) :
    decodeLoop mask false (.char quoteRune :: .char c :: rest) = encodeRune c ++ decodeLoop mask false rest := by
  rw [decodeLoop, if_neg (by decide), if_pos rfl, if_neg (by decide), decodeLoop]
  by_cases hnul : c = symbolNul
  · rw [if_pos hnul, if_pos rfl]
  by_cases hquote : c = quoteRune
  · rw [if_neg hnul, if_pos hquote, if_pos rfl]
  obtain ⟨plain, hplain⟩ := Option.isSome_iff_exists.mp ((h.resolve_left hnul).resolve_left hquote)
  rw [if_neg hnul, if_neg hquote, hplain]
  rfl

/-- One turn of the loop of `Decode` for each symbol that the loop of `Encode` wrote. -/
theorem decodeLoop_encodeSymbol (mask : MultiEncoder) (x : Symbol) (rest : List Symbol) :
    decodeLoop mask false (encodeSymbol mask x ++ rest) = x.bytes ++ decodeLoop mask false rest := by
  cases x with rw [encodeSymbol]
  | stray b =>
    split_ifs with hutf8
    · exact decodeLoop_hex hutf8 b rest
    · exact decodeLoop_of_not_needsDecoding rfl rest
  | char c =>
    split_ifs with hnul hquote
    · subst hnul
      change decodeLoop mask false (.char symbolNul :: rest) = _
      rw [decodeLoop, if_pos rfl]
      rfl
    · exact decodeLoop_quoted (hquote.imp_right .inl) rest
    · obtain ⟨hsym, hq⟩ := not_or.mp hquote
      cases hby : encodeBy (enabled mask rules) c with
      | none =>
        refine decodeLoop_of_not_needsDecoding ?_ rest
        simp [needsDecoding, hsym, hq, (encodeBy_eq_none hby).2]
      | some out =>
        obtain ⟨hmem, rfl⟩ | ⟨horig, rfl⟩ := encodeBy_cases (paired_rules mask) hby
        · obtain ⟨-, hpos, hlt⟩ := paired_rules mask _ hmem
          change decodeLoop mask false (.char (substitute c) :: rest) = _
          rw [decodeLoop, if_neg (substitute_ne_symbolNul hlt hpos), if_neg (substitute_ne_quoteRune hlt),
            original_of_mem (paired_rules mask) hmem]
          rfl
        · exact decodeLoop_quoted (.inr (.inr horig)) rest

theorem decodeLoop_flatMap (mask : MultiEncoder) (xs rest : List Symbol) :
    decodeLoop mask false (xs.flatMap (encodeSymbol mask) ++ rest) = bytes xs ++ decodeLoop mask false rest := by
  induction xs with
  | nil => rfl
  | cons x xs ih =>
    rw [flatMap_cons, append_assoc, decodeLoop_encodeSymbol, ih, ← append_assoc]
    rfl

/-! ## The edges -/

/-- The character a symbol at an edge stands for. -/
theorem char_of_encodeEdge {pairs : List (Char × Char)} (hpairs : Paired pairs) {out : List Char}
    (h : encodeEdge pairs x = some out) : ∃ c, x = .char c ∧
      (((c, substitute c) ∈ pairs ∧ out = [substitute c]) ∨ ((original pairs c).isSome ∧ out = [quoteRune, c])) := by
  cases x with
  | stray b => cases h
  | char c => exact ⟨c, rfl, encodeBy_cases hpairs h⟩

theorem decodeLeft_of_some {out : List Char} (h : encodeEdge (enabled mask leftRules) x = some out)
    (rest : List Symbol) :
    ∃ c, x = .char c ∧ decodeLeft mask (chars out ++ rest) = ([c], rest) := by
  have hpairs := paired_leftRules mask
  obtain ⟨c, rfl, ⟨hmem, rfl⟩ | ⟨horig, rfl⟩⟩ := char_of_encodeEdge hpairs h
  · refine ⟨c, rfl, ?_⟩
    change decodeLeft mask (.char (substitute c) :: rest) = _
    unfold decodeLeft
    simp only [original_of_mem hpairs hmem]
  · refine ⟨c, rfl, ?_⟩
    have hquote : original (enabled mask leftRules) quoteRune = none := original_of_lt hpairs (by decide)
    change decodeLeft mask (.char quoteRune :: .char c :: rest) = _
    rw [decodeLeft, hquote]
    exact if_pos ⟨rfl, horig⟩

theorem decodeLeft_char (horig : original (enabled mask leftRules) c = none) (hne : c ≠ quoteRune)
    (rest : List Symbol) :
    decodeLeft mask (.char c :: rest) = ([], .char c :: rest) := by
  simp only [decodeLeft, horig]
  split
  next => rw [if_neg fun hand => hne hand.1]
  next => rfl

/-- A first symbol that no rule of the edge takes is not taken for a replaced one. -/
theorem decodeLeft_of_none (hout : Encoded x out) (h : encodeEdge (enabled mask leftRules) x = none)
    (rest : List Symbol) :
    decodeLeft mask (out ++ rest) = ([], out ++ rest) := by
  have hpairs := paired_leftRules mask
  have hquote : original (enabled mask leftRules) quoteRune = none := original_of_lt hpairs (by decide)
  cases hout with
  | same _ hx =>
    cases x with
    | stray b => rfl
    | char c => exact decodeLeft_char (encodeBy_eq_none h).2 (fun heq => hx (congrArg _ heq)) rest
  | replaced c hc => exact decodeLeft_char (original_substitute_of_none hpairs hc h) (substitute_ne_quoteRune hc) rest
  | quoted c =>
    have horig := (encodeBy_eq_none h).2
    simp [decodeLeft, hquote, horig]
  | hex b =>
    have horig : original (enabled mask leftRules) (hexDigit (b.toNat / 16)) = none :=
      original_of_lt hpairs ((hexDigit_lt b).1.le.trans (by decide))
    simp [quotedByte, chars, decodeLeft, hquote, horig]

/-- The last rune of an encoded symbol is a quote only for the quote. -/
theorem Encoded.getLast (h : Encoded x out) :
    ∃ init y, out = init ++ [y] ∧ (y = .char quoteRune ↔ x = .char quoteRune) := by
  cases h with
  | same hx => exact ⟨[], x, rfl, Iff.rfl⟩
  | replaced c hc =>
    refine ⟨[], _, rfl, ⟨fun heq => ?_, fun heq => ?_⟩⟩
    · exact absurd (Symbol.char.inj heq) (substitute_ne_quoteRune hc)
    · rw [Symbol.char.inj heq] at hc
      exact absurd hc (by decide)
  | quoted c => exact ⟨[.char quoteRune], _, rfl, Iff.rfl⟩
  | hex b =>
    exact ⟨chars [quoteRune, hexDigit (b.toNat / 16)], _, rfl,
      fun heq => absurd (Symbol.char.inj heq) (ne_of_ascii (hexDigit_lt b).2 (by decide)), nofun⟩

theorem getLast?_flatMap (mask : MultiEncoder) (xs : List Symbol) :
    (xs.flatMap (encodeSymbol mask)).getLast? = some (.char quoteRune) ↔ xs.getLast? = some (.char quoteRune) := by
  rcases eq_nil_or_concat' xs with rfl | ⟨init, x, rfl⟩
  · exact Iff.rfl
  · obtain ⟨out, y, hout, hiff⟩ := (encoded_encodeSymbol mask x).getLast
    rw [flatMap_append, flatMap_singleton, hout, ← append_assoc, getLast?_concat,
      getLast?_concat, Option.some_inj, Option.some_inj, hiff]

theorem decodeRight_quoted (h : (original (enabled mask rightRules) c).isSome)
    (init : List Symbol) : decodeRight mask (init ++ [.char quoteRune, .char c]) = (init, [c]) := by
  obtain ⟨plain, hplain⟩ := Option.isSome_iff_exists.mp h
  have hsplit : init ++ [.char quoteRune, .char c] = init ++ [.char quoteRune] ++ [.char c] := by simp
  rw [decodeRight, hsplit, getLast?_concat]
  simp only [hplain, dropLast_concat, getLast?_concat, if_pos]

theorem decodeRight_replaced (h : (c, substitute c) ∈ enabled mask rightRules)
    (init : List Symbol) : decodeRight mask (init ++ [.char (substitute c)]) =
      if init.getLast? = some (.char quoteRune) then (init.dropLast, [substitute c]) else (init, [c]) := by
  rw [decodeRight, getLast?_concat]
  simp only [original_of_mem (paired_rightRules mask) h, dropLast_concat]

/-- A last symbol that no rule of the edge takes is not taken for a replaced one. -/
theorem decodeRight_of_none (hout : Encoded x out) (h : encodeEdge (enabled mask rightRules) x = none)
    (init : List Symbol) :
    decodeRight mask (init ++ out) = (init ++ out, []) := by
  have hpairs := paired_rightRules mask
  -- only the last rune counts, and it is no replacement
  have hlast : ∀ (front : List Symbol) (c : Char), original (enabled mask rightRules) c = none →
      decodeRight mask (front ++ [.char c]) = (front ++ [.char c], []) := by
    intro front c horig
    rw [decodeRight, getLast?_concat]
    simp only [horig]
  cases hout with
  | same hx =>
    cases x with
    | stray b => rw [decodeRight, getLast?_concat]
    | char c => exact hlast init c (encodeBy_eq_none h).2
  | replaced c hc => exact hlast init _ (original_substitute_of_none hpairs hc h)
  | quoted c =>
    have hq := hlast (init ++ [.char quoteRune]) c (encodeBy_eq_none h).2
    rwa [append_assoc] at hq
  | hex b =>
    have horig : original (enabled mask rightRules) (hexDigit (b.toNat % 16)) = none :=
      original_of_lt hpairs ((hexDigit_lt b).2.le.trans (by decide))
    have hq := hlast (init ++ chars [quoteRune, hexDigit (b.toNat / 16)]) _ horig
    rwa [append_assoc] at hq

/-! ## Names -/

section

variable (mask : MultiEncoder) (xs : List Symbol)

/-- What `encode` makes of a name behind its first character. -/
def encodeTail : List Symbol :=
  (encodeRight mask xs).1.flatMap (encodeSymbol mask) ++ chars (encodeRight mask xs).2

/-- What `decode` makes of a name behind its first character. -/
def decodeTail : List UInt8 :=
  decodeLoop mask false (decodeRight mask xs).1 ++ bytes (chars (decodeRight mask xs).2)

/-- A quote stands before a last character that is replaced. -/
def QuoteBeforeEdge : Prop :=
  ∃ init c, xs = init ++ chars [quoteRune, c] ∧ (replacement (enabled mask rightRules) c).isSome

theorem decodeLoop_flatMap_self : decodeLoop mask false (xs.flatMap (encodeSymbol mask)) = bytes xs := by
  have h := decodeLoop_flatMap mask xs []
  rw [append_nil] at h
  exact h.trans (append_nil _)

end

theorem decodeTail_encodeTail (h : ¬QuoteBeforeEdge mask xs) : decodeTail mask (encodeTail mask xs) = bytes xs := by
  have hpairs := paired_rightRules mask
  obtain ⟨init, x, out, rfl, hedge, heq⟩ | ⟨hnone, heq⟩ := encodeRight_cases mask xs
  · rw [encodeTail, heq, decodeTail]
    obtain ⟨c, rfl, ⟨hmem, rfl⟩ | ⟨horig, rfl⟩⟩ := char_of_encodeEdge hpairs hedge
    · have hlast : ¬(init.flatMap (encodeSymbol mask)).getLast? = some (.char quoteRune) := by
        intro hq
        obtain ⟨front, hfront⟩ := getLast?_eq_some_iff.mp ((getLast?_flatMap mask init).mp hq)
        refine h ⟨front, c, by simp [hfront, chars], ?_⟩
        rw [Option.isSome_iff_ne_none]
        exact fun hnone => replacement_eq_none hnone _ hmem rfl
      have hright := decodeRight_replaced hmem (init.flatMap (encodeSymbol mask))
      rw [if_neg hlast] at hright
      change decodeLoop mask false (decodeRight mask (_ ++ [.char (substitute c)])).1 ++
        bytes (chars (decodeRight mask (_ ++ [.char (substitute c)])).2) = _
      rw [hright, bytes_append, decodeLoop_flatMap_self]
      rfl
    · change decodeLoop mask false (decodeRight mask (_ ++ [.char quoteRune, .char c])).1 ++
        bytes (chars (decodeRight mask (_ ++ [.char quoteRune, .char c])).2) = _
      rw [decodeRight_quoted horig, bytes_append, decodeLoop_flatMap_self]
      rfl
  · have hright : decodeRight mask (xs.flatMap (encodeSymbol mask)) = (xs.flatMap (encodeSymbol mask), []) := by
      rcases eq_nil_or_concat' xs with rfl | ⟨init, x, rfl⟩
      · rfl
      · rw [flatMap_append, flatMap_singleton]
        exact decodeRight_of_none (encoded_encodeSymbol mask x) (hnone init x rfl) _
    rw [encodeTail, heq]
    change decodeTail mask (_ ++ []) = _
    rw [append_nil, decodeTail, hright, decodeLoop_flatMap_self]
    exact append_nil _

/-- The quote is taken to quote the replacement of the last character, and the replacement stays. -/
theorem decodeTail_of_quoteBeforeEdge {init : List Symbol} (h : (replacement (enabled mask rightRules) c).isSome) :
    decodeTail mask (encodeTail mask (init ++ chars [quoteRune, c])) =
      bytes (init ++ chars [quoteRune, substitute c]) := by
  have hpairs := paired_rightRules mask
  obtain ⟨r, hr⟩ := Option.isSome_iff_exists.mp h
  have hmem := mem_of_replacement hr
  obtain ⟨hsub, -, -⟩ := hpairs _ hmem
  have hr' : r = substitute c := hsub
  subst hr'
  have hsplit : init ++ chars [quoteRune, c] = init ++ [.char quoteRune] ++ [.char c] := by simp [chars]
  have hright : encodeRight mask (init ++ chars [quoteRune, c]) = (init ++ [.char quoteRune], [substitute c]) := by
    have hedge : encodeEdge (enabled mask rightRules) (.char c) = some [substitute c] :=
      by rw [encodeEdge, encodeBy, hr]
    rw [hsplit, encodeRight, getLast?_concat, Option.bind_some, hedge, dropLast_concat]
  -- the quote itself is quoted, so the replacement has a quote before it
  have hquote : encodeSymbol mask (.char quoteRune) = chars [quoteRune] ++ chars [quoteRune] := by
    rw [encodeSymbol, if_neg (by decide), if_pos (.inr rfl)]
    rfl
  have htail : encodeTail mask (init ++ chars [quoteRune, c]) =
      init.flatMap (encodeSymbol mask) ++ chars [quoteRune] ++ chars [quoteRune] ++ [.char (substitute c)] := by
    rw [encodeTail, hright, flatMap_append, flatMap_singleton, hquote, append_assoc _ (chars _) (chars _)]
    rfl
  have hlast : ∀ front : List Symbol, (front ++ chars [quoteRune]).getLast? = some (.char quoteRune) :=
    fun front => getLast?_concat
  have hdrop : ∀ front : List Symbol, (front ++ chars [quoteRune]).dropLast = front := fun front => dropLast_concat
  have hlone : decodeLoop mask false (chars [quoteRune]) = encodeRune quoteRune := by
    change decodeLoop mask false [.char quoteRune] = _
    rw [decodeLoop, if_neg (by decide), if_pos rfl, if_neg (by decide), decodeLoop, if_pos rfl]
  rw [htail, decodeTail, decodeRight_replaced hmem, if_pos (hlast _), hdrop, decodeLoop_flatMap, bytes_append,
    append_assoc, hlone]
  rfl

section

variable (mask) (xs)

theorem encodeName_eq_tail :
    encodeName mask xs = chars (encodeLeft mask xs).1 ++ encodeTail mask (encodeLeft mask xs).2 := by
  rw [encodeName_eq, encodeTail, append_assoc]

theorem decodeName_eq_tail :
    decodeName mask xs = bytes (chars (decodeLeft mask xs).1) ++ decodeTail mask (decodeLeft mask xs).2 := by
  rw [decodeName_eq, decodeTail, append_assoc]

theorem written_encodeTail : Written xs (encodeTail mask xs) := by
  rw [encodeTail]
  obtain ⟨init, x, out, rfl, hedge, heq⟩ | ⟨-, heq⟩ := encodeRight_cases mask xs
  · rw [heq]
    have hlast : Written [x] (chars out ++ []) := .cons (encoded_encodeEdge (paired_rightRules mask) hedge) .nil
    rw [append_nil] at hlast
    exact (written_flatMap mask init).append hlast
  · rw [heq]
    change Written xs (_ ++ [])
    rw [append_nil]
    exact written_flatMap mask xs

theorem written_encodeName : Written xs (encodeName mask xs) := by
  rw [encodeName_eq_tail]
  obtain ⟨x, rest, out, rfl, hedge, heq⟩ | ⟨-, heq⟩ := encodeLeft_cases mask xs
  · rw [heq]
    exact .cons (encoded_encodeEdge (paired_leftRules mask) hedge) (written_encodeTail mask rest)
  · rw [heq]
    exact written_encodeTail mask xs

theorem decodeName_encodeName :
    ∃ front rest, xs = chars front ++ rest ∧ (∀ c ∈ front, c ≠ quoteRune) ∧ front.length ≤ 1 ∧
      decodeName mask (encodeName mask xs) = bytes (chars front) ++ decodeTail mask (encodeTail mask rest) := by
  have hpairs := paired_leftRules mask
  obtain ⟨x, rest, out, rfl, hedge, heq⟩ | ⟨hnone, heq⟩ := encodeLeft_cases mask xs
  · obtain ⟨c, rfl, hleft⟩ := decodeLeft_of_some hedge (encodeTail mask rest)
    refine ⟨[c], rest, rfl, fun d hd heq => ?_, le_rfl, ?_⟩
    · -- the quote is taken by no rule
      rw [mem_singleton.mp hd] at heq
      subst heq
      obtain ⟨d, hd, ⟨hmem, -⟩ | ⟨horig, -⟩⟩ := char_of_encodeEdge hpairs hedge
      · cases hd
        exact absurd (hpairs _ hmem).2.2 (by decide)
      · cases hd
        rw [original_of_lt hpairs (by decide)] at horig
        cases horig
    · rw [encodeName_eq_tail, heq, decodeName_eq_tail, hleft]
  · refine ⟨[], xs, rfl, nofun, Nat.zero_le 1, ?_⟩
    have hleft : decodeLeft mask (encodeTail mask xs) = ([], encodeTail mask xs) := by
      cases xs with
      | nil => rfl
      | cons x rest =>
        obtain ⟨out, ys, hout, head, -⟩ := (written_encodeTail mask (x :: rest)).cons_inv
        rw [hout]
        exact decodeLeft_of_none head (hnone x rfl) ys
    rw [encodeName_eq_tail, heq]
    change decodeName mask (encodeTail mask xs) = _
    rw [decodeName_eq_tail, hleft]

theorem decodeName_encodeName_iff : decodeName mask (encodeName mask xs) = bytes xs ↔ ¬QuoteBeforeEdge mask xs := by
  obtain ⟨front, rest, rfl, hfront, hlen, heq⟩ := decodeName_encodeName mask xs
  have hquote : QuoteBeforeEdge mask (chars front ++ rest) ↔ QuoteBeforeEdge mask rest := by
    constructor
    · rintro ⟨init, c, hinit, hc⟩
      match front with
      | [] => exact ⟨init, c, hinit, hc⟩
      | [d] =>
        match init with
        | [] =>
          cases hinit
          exact absurd rfl (hfront quoteRune mem_cons_self)
        | _ :: init => exact ⟨init, c, (cons.inj hinit).2, hc⟩
    · rintro ⟨init, c, rfl, hc⟩
      exact ⟨chars front ++ init, c, (append_assoc _ _ _).symm, hc⟩
  rw [hquote, heq, bytes_append, append_cancel_left_eq]
  constructor
  · rintro h ⟨init, c, rfl, hc⟩
    rw [decodeTail_of_quoteBeforeEdge hc, bytes_append, bytes_append, append_cancel_left_eq] at h
    have hrune : encodeRune (substitute c) = encodeRune c := by
      simpa [chars, bytes_char, bytes_nil] using h
    obtain ⟨r, hr⟩ := Option.isSome_iff_exists.mp hc
    exact substitute_ne_self (paired_rightRules mask _ (mem_of_replacement hr)).2.2 (encodeRune_injective hrune)
  · exact decodeTail_encodeTail

end

theorem replaces_encodeSymbol (h : has mask .invalidUtf8 = false) : Replaces (encodeSymbol mask) where
  char c := by
    rw [encodeSymbol]
    split_ifs with hnul hquote
    · exact ⟨valid_chars _, cons_ne_nil _ _⟩
    · exact ⟨valid_chars _, cons_ne_nil _ _⟩
    · refine ⟨valid_chars _, fun hnil => ?_⟩
      cases hby : encodeBy (enabled mask rules) c with
      | none =>
        rw [hby] at hnil
        cases hnil
      | some out =>
        have hne := encodeEdge_ne_nil (paired_rules mask) (x := .char c) hby
        rw [hby] at hnil
        exact hne (map_eq_nil_iff.mp hnil)
  stray b := by rw [encodeSymbol, h, if_neg (by decide)]

theorem valid_encodeSymbol (h : has mask .invalidUtf8 = true) (x : Symbol) : Valid (encodeSymbol mask x) := by
  cases x with
  | stray b =>
    rw [encodeSymbol, h, if_pos rfl]
    exact valid_chars _
  | char c =>
    rw [encodeSymbol]
    split_ifs <;> exact valid_chars _

theorem valid_encodeName (h : has mask .invalidUtf8 = true) (xs : List Symbol) : Valid (encodeName mask xs) := by
  rw [encodeName_eq]
  intro x hx
  simp only [mem_append, mem_flatMap] at hx
  obtain (hx | ⟨y, -, hx⟩) | hx := hx
  · exact valid_chars _ x hx
  · exact valid_encodeSymbol h y x hx
  · exact valid_chars _ x hx

/-- Stray bytes stay stray, so the encoded name is cut into the same runes again. -/
theorem stable_encodeName (mask : MultiEncoder) (h : Stable xs) : Stable (encodeName mask xs) := by
  cases hutf8 : has mask .invalidUtf8 with
  | true => exact (valid_encodeName hutf8 xs).stable
  | false =>
    have hreplaces := replaces_encodeSymbol hutf8
    have htail : ∀ {ys : List Symbol}, Stable ys → Stable (encodeTail mask ys) := by
      intro ys hys
      rw [encodeTail]
      obtain ⟨init, x, out, rfl, hedge, heq⟩ | ⟨-, heq⟩ := encodeRight_cases mask ys
      · obtain ⟨c, rfl, -⟩ := char_of_encodeEdge (paired_rightRules mask) hedge
        rw [heq]
        exact .flatMap hreplaces (valid_chars out) (hys.of_append (valid_chars [c]))
      · rw [heq]
        exact .flatMap hreplaces (valid_chars []) hys
    rw [encodeName_eq_tail]
    obtain ⟨x, rest, out, rfl, hedge, heq⟩ | ⟨-, heq⟩ := encodeLeft_cases mask xs
    · obtain ⟨c, rfl, -⟩ := char_of_encodeEdge (paired_leftRules mask) hedge
      rw [heq]
      exact (valid_chars out).append_stable (htail h)
    · rw [heq]
      exact (valid_chars []).append_stable (htail h)

/-! ## Dots -/

theorem Written.of_nil (h : Written xs []) : xs = [] := by
  cases xs with
  | nil => rfl
  | cons x xs =>
    obtain ⟨out, ys, heq, hout, -⟩ := h.cons_inv
    obtain ⟨hnil, -⟩ := append_eq_nil_iff.mp heq.symm
    subst hnil
    obtain ⟨init, y, hlast, -⟩ := hout.getLast
    exact absurd hlast (by simp)

/-- A character but the quoting one is itself, or stands for another. -/
theorem Written.of_char (hd : d ≠ quoteRune) (h : Written xs (.char d :: rest)) :
    ∃ c xs', xs = .char c :: xs' ∧ (c = d ∨ c.toNat < 0x80 ∧ substitute c = d) ∧ Written xs' rest := by
  cases xs with
  | nil => cases h
  | cons x xs =>
    obtain ⟨out, ys, heq, hout, htail⟩ := h.cons_inv
    cases hout with
    | same =>
      obtain ⟨rfl, rfl⟩ := cons.inj heq
      exact ⟨_, xs, rfl, .inl rfl, htail⟩
    | replaced c hc =>
      obtain ⟨hsub, rfl⟩ := cons.inj heq
      exact ⟨c, xs, rfl, .inr ⟨hc, (Symbol.char.inj hsub).symm⟩, htail⟩
    | quoted c | hex b => exact absurd (Symbol.char.inj (cons.inj heq).1) hd

/-- A fullwidth full stop is itself, or stands for a full stop. -/
theorem Written.of_fullwidth (h : Written xs (.char '．' :: rest)) :
    ∃ c xs', xs = .char c :: xs' ∧ (c = '．' ∨ c = '.') ∧ Written xs' rest := by
  obtain ⟨c, xs', hxs, hc, htail⟩ := h.of_char (by decide)
  exact ⟨c, xs', hxs, hc.imp_right fun ⟨hc, hsub⟩ => substitute_injective hc (by decide) hsub, htail⟩

/-- A quoted fullwidth full stop stands for itself. -/
theorem Written.of_quoted (h : Written xs (.char quoteRune :: .char '．' :: rest)) :
    ∃ xs', xs = .char '．' :: xs' ∧ Written xs' rest := by
  cases xs with
  | nil => cases h
  | cons x xs =>
    obtain ⟨out, ys, heq, hout, htail⟩ := h.cons_inv
    cases hout with
    | same _ hx =>
      obtain ⟨rfl, -⟩ := cons.inj heq
      exact absurd rfl hx
    | replaced c hc =>
      obtain ⟨hsub, -⟩ := cons.inj heq
      exact absurd (Symbol.char.inj hsub).symm (substitute_ne_quoteRune hc)
    | quoted c =>
      obtain ⟨-, heq⟩ := cons.inj heq
      obtain ⟨hc, rfl⟩ := cons.inj heq
      cases hc
      exact ⟨xs, rfl, htail⟩
    | hex b =>
      obtain ⟨-, heq⟩ := cons.inj heq
      obtain ⟨hc, -⟩ := cons.inj heq
      exact absurd (Symbol.char.inj hc).symm (ne_of_ascii (hexDigit_lt b).1 (by decide))

/-- A name that is written as one of the dots and is none is a full stop and a fullwidth one. -/
theorem Written.of_dotNames (hname : name ∈ dotNames)
    (h : Written xs (chars name.2)) (hne : ∀ name' ∈ dotNames, chars name'.1 ≠ xs) :
    chars name.2 = chars ['．', '．'] ∧ (xs = chars ['.', '．'] ∨ xs = chars ['．', '.']) := by
  have hkeys : ∀ text ∈ dotNames.map Prod.fst, chars text ≠ xs := by
    intro text htext
    obtain ⟨name', hmem, rfl⟩ := mem_map.mp htext
    exact hne name' hmem
  simp only [dotNames, mem_cons, not_mem_nil, or_false] at hname
  obtain rfl | rfl | rfl | rfl := hname
  · obtain ⟨c, xs', rfl, hc, htail⟩ := Written.of_fullwidth h
    obtain rfl := htail.of_nil
    obtain rfl | rfl := hc
    · exact absurd rfl (hkeys ['．'] (by decide))
    · exact absurd rfl (hkeys ['.'] (by decide))
  · obtain ⟨c, xs', rfl, hc, htail⟩ := Written.of_fullwidth h
    obtain ⟨d, xs', rfl, hd, htail⟩ := Written.of_fullwidth htail
    obtain rfl := htail.of_nil
    refine ⟨rfl, ?_⟩
    obtain rfl | rfl := hc <;> obtain rfl | rfl := hd
    · exact absurd rfl (hkeys ['．', '．'] (by decide))
    · exact .inr rfl
    · exact .inl rfl
    · exact absurd rfl (hkeys ['.', '.'] (by decide))
  · obtain ⟨xs', rfl, htail⟩ := Written.of_quoted h
    obtain rfl := htail.of_nil
    exact absurd rfl (hkeys ['．'] (by decide))
  · obtain ⟨xs', rfl, htail⟩ := Written.of_quoted h
    obtain ⟨xs'', rfl, htail'⟩ := Written.of_quoted htail
    obtain rfl := htail'.of_nil
    exact absurd rfl (hkeys ['．', '．'] (by decide))

section

variable (mask : MultiEncoder)

theorem encodeBy_leftRules_period :
    encodeBy (enabled mask leftRules) '.' = (if has mask .leftPeriod then some ['．'] else none) ∧
      encodeBy (enabled mask leftRules) '．' = (if has mask .leftPeriod then some [quoteRune, '．'] else none) := by
  simp only [enabled, leftRules, filter_cons, filter_nil]
  cases has mask .leftSpace <;> cases has mask .leftPeriod <;> cases has mask .leftTilde <;>
    cases has mask .leftCrLfHtVt <;> decide

theorem encodeBy_rightRules_period :
    encodeBy (enabled mask rightRules) '.' = (if has mask .rightPeriod then some ['．'] else none) ∧
      encodeBy (enabled mask rightRules) '．' = (if has mask .rightPeriod then some [quoteRune, '．'] else none) := by
  simp only [enabled, rightRules, filter_cons, filter_nil]
  cases has mask .rightSpace <;> cases has mask .rightPeriod <;> cases has mask .rightCrLfHtVt <;> decide

theorem encodeSymbol_period :
    encodeSymbol mask (.char '.') = chars ['.'] ∧ encodeSymbol mask (.char '．') = chars ['．'] := by
  have habsent : ∀ p ∈ rules.flatMap Rule.pairs, p.1 ≠ '.' ∧ p.2 ≠ '.' ∧ p.1 ≠ '．' ∧ p.2 ≠ '．' := by decide +kernel
  have henabled : ∀ p ∈ enabled mask rules, p.1 ≠ '.' ∧ p.2 ≠ '.' ∧ p.1 ≠ '．' ∧ p.2 ≠ '．' := by
    intro p hp
    obtain ⟨rule, hrule, -, hmem⟩ := mem_enabled.mp hp
    exact habsent p (mem_flatMap.mpr ⟨rule, hrule, hmem⟩)
  have hnone : ∀ c, (∀ p ∈ enabled mask rules, p.1 ≠ c ∧ p.2 ≠ c) → encodeBy (enabled mask rules) c = none := by
    intro c hc
    have hrepl : replacement (enabled mask rules) c = none := by
      simpa [replacement, find?_eq_none] using fun a b hp => (hc (a, b) hp).1
    rw [encodeBy, hrepl, original_isNone_of fun p hp => (hc p hp).2]
    rfl
  constructor
  · rw [encodeSymbol, if_neg (by decide), if_neg (by decide),
      hnone '.' fun p hp => ⟨(henabled p hp).1, (henabled p hp).2.1⟩]
    rfl
  · rw [encodeSymbol, if_neg (by decide), if_neg (by decide), hnone '．' fun p hp => (henabled p hp).2.2]
    rfl

theorem encodeName_periods :
    (encodeName mask (chars ['.', '．']) = chars ['．', '．'] ↔
      has mask .leftPeriod = true ∧ has mask .rightPeriod = false) ∧
      (encodeName mask (chars ['．', '.']) = chars ['．', '．'] ↔
        has mask .leftPeriod = false ∧ has mask .rightPeriod = true) := by
  obtain ⟨hleft, hleft'⟩ := encodeBy_leftRules_period mask
  obtain ⟨hright, hright'⟩ := encodeBy_rightRules_period mask
  obtain ⟨hdot, hfull⟩ := encodeSymbol_period mask
  rw [encodeName_eq, encodeName_eq]
  cases hl : has mask .leftPeriod <;> cases hr : has mask .rightPeriod <;> rw [hl] at hleft hleft' <;>
    rw [hr] at hright hright' <;>
    simp [encodeLeft, encodeRight, encodeEdge, hleft, hleft', hright, hright', hdot, hfull, chars, quoteRune]

/-- The name is written as the name of two dots is: it is a full stop and a fullwidth one, and only the full stop is at
an edge whose full stops are replaced. -/
def DotClash (xs : List Symbol) : Prop :=
  has mask .dot = true ∧
    ((has mask .leftPeriod = true ∧ has mask .rightPeriod = false ∧ xs = chars ['.', '．']) ∨
      (has mask .leftPeriod = false ∧ has mask .rightPeriod = true ∧ xs = chars ['．', '.']))

end

theorem not_dotClash_of_mem (h : name ∈ dotNames) : ¬DotClash mask (chars name.1) := by
  have hne : ∀ name ∈ dotNames, chars name.1 ≠ chars ['.', '．'] ∧ chars name.1 ≠ chars ['．', '.'] := by decide
  rintro ⟨-, ⟨-, -, heq⟩ | ⟨-, -, heq⟩⟩
  · exact (hne name h).1 heq
  · exact (hne name h).2 heq

theorem not_quoteBeforeEdge_of_mem (h : name ∈ dotNames) : ¬QuoteBeforeEdge mask (chars name.1) := by
  have hne : ∀ name ∈ dotNames, .char quoteRune ∉ chars name.1 := by decide
  rintro ⟨init, c, heq, -⟩
  refine hne name h ?_
  rw [heq]
  simp [chars]

/-- Outside of the names of dots, the encoded name is one of theirs exactly for the clash. -/
theorem dotClash_iff (hdot : has mask .dot = true) (hne : ∀ name ∈ dotNames, chars name.1 ≠ xs) :
    (∃ name ∈ dotNames, chars name.2 = encodeName mask xs) ↔ DotClash mask xs := by
  constructor
  · rintro ⟨name, hname, heq⟩
    have hwritten := written_encodeName mask xs
    rw [← heq] at hwritten
    obtain ⟨htwo, rfl | rfl⟩ := hwritten.of_dotNames hname hne
    · obtain ⟨hl, hr⟩ := (encodeName_periods mask).1.mp (heq.symm.trans htwo)
      exact ⟨hdot, .inl ⟨hl, hr, rfl⟩⟩
    · obtain ⟨hl, hr⟩ := (encodeName_periods mask).2.mp (heq.symm.trans htwo)
      exact ⟨hdot, .inr ⟨hl, hr, rfl⟩⟩
  · rintro ⟨-, ⟨hl, hr, rfl⟩ | ⟨hl, hr, rfl⟩⟩
    · exact ⟨(['.', '.'], ['．', '．']), by decide, ((encodeName_periods mask).1.mpr ⟨hl, hr⟩).symm⟩
    · exact ⟨(['.', '.'], ['．', '．']), by decide, ((encodeName_periods mask).2.mpr ⟨hl, hr⟩).symm⟩

/-! ## The round trip -/

theorem decode_encodeName {s : List UInt8} (hraw : mask ≠ encodeRaw)
    (hne : has mask .dot = true → ∀ name ∈ dotNames, chars name.1 ≠ symbols s) :
    decode mask (bytes (encodeName mask (symbols s))) = s ↔
      ¬DotClash mask (symbols s) ∧ ¬QuoteBeforeEdge mask (symbols s) := by
  have hstable := symbols_bytes (stable_encodeName mask (stable_symbols s))
  have hname := decodeName_encodeName_iff mask (symbols s)
  rw [bytes_symbols] at hname
  rw [decode, if_neg hraw, hstable]
  cases hdot : has mask .dot with
  | false =>
    have hclash : ¬DotClash mask (symbols s) := fun h => Bool.false_ne_true (hdot.symm.trans h.1)
    rw [if_neg (by decide), hname]
    exact ⟨fun h => ⟨hclash, h⟩, And.right⟩
  | true =>
    have hiff := dotClash_iff hdot (hne hdot)
    rw [if_pos rfl]
    cases hfind : dotNames.find? (fun name => chars name.2 = encodeName mask (symbols s)) with
    | none =>
      rw [find?_eq_none] at hfind
      have hclash : ¬DotClash mask (symbols s) := by
        intro h
        obtain ⟨name, hmem, heq⟩ := hiff.mpr h
        exact hfind name hmem (decide_eq_true heq)
      exact hname.trans ⟨fun h => ⟨hclash, h⟩, And.right⟩
    | some name =>
      have hmem := mem_of_find?_eq_some hfind
      have heq : chars name.2 = encodeName mask (symbols s) := by simpa using find?_some hfind
      refine ⟨fun h => absurd ?_ (hne hdot name hmem), fun h => absurd (hiff.mp ⟨name, hmem, heq⟩) h.1⟩
      rw [← h, symbols_bytes (valid_chars name.1).stable]

/-- A name is that of dots and has a text of its own, or is written character by character. -/
theorem encode_cases (hraw : mask ≠ encodeRaw) (s : List UInt8) :
    (has mask .dot = true ∧ ∃ name ∈ dotNames, chars name.1 = symbols s ∧ encode mask s = bytes (chars name.2)) ∨
      ((has mask .dot = true → ∀ name ∈ dotNames, chars name.1 ≠ symbols s) ∧
        encode mask s = bytes (encodeName mask (symbols s))) := by
  by_cases hnil : s = []
  · subst hnil
    refine .inr ⟨fun _ => by decide, ?_⟩
    rw [encode, if_neg hraw, if_pos rfl]
    rfl
  rw [encode, if_neg hraw, if_neg hnil]
  cases hdot : has mask .dot with
  | false => exact .inr ⟨nofun, rfl⟩
  | true =>
    rw [if_pos rfl]
    cases hfind : dotNames.find? (fun name => chars name.1 = symbols s) with
    | none =>
      rw [find?_eq_none] at hfind
      exact .inr ⟨fun _ name hmem heq => hfind name hmem (decide_eq_true heq), rfl⟩
    | some name => exact .inl ⟨rfl, name, mem_of_find?_eq_some hfind, by simpa using find?_some hfind, rfl⟩

theorem decode_dots (hraw : mask ≠ encodeRaw) (hdot : has mask .dot = true)
    (hmem : name ∈ dotNames) : decode mask (bytes (chars name.2)) = bytes (chars name.1) := by
  have hfirst : ∀ name ∈ dotNames, dotNames.find? (fun name' => chars name'.2 = chars name.2) = some name := by decide
  rw [decode, if_neg hraw, if_pos hdot, symbols_bytes (valid_chars name.2).stable, hfirst name hmem]

theorem decode_encode_of_ne (hraw : mask ≠ encodeRaw) (s : List UInt8) :
    decode mask (encode mask s) = s ↔ ¬DotClash mask (symbols s) ∧ ¬QuoteBeforeEdge mask (symbols s) := by
  obtain ⟨hdot, name, hmem, heq, henc⟩ | ⟨hne, henc⟩ := encode_cases hraw s
  · have hback : decode mask (encode mask s) = s := by rw [henc, decode_dots hraw hdot hmem, heq, bytes_symbols]
    rw [← heq]
    exact ⟨fun _ => ⟨not_dotClash_of_mem hmem, not_quoteBeforeEdge_of_mem hmem⟩, fun _ => hback⟩
  · rw [henc]
    exact decode_encodeName hraw hne

/-- `Decode` recovers every name from its encoding but those with a quote before a replaced last character, and those of
a full stop and a fullwidth one that are written as two dots. -/
theorem decode_encode_iff (mask : MultiEncoder) (s : List UInt8) : decode mask (encode mask s) = s ↔
    ¬DotClash mask (symbols s) ∧ ¬QuoteBeforeEdge mask (symbols s) := by
  by_cases hraw : mask = encodeRaw
  · subst hraw
    have hclash : ¬DotClash encodeRaw (symbols s) := fun h => absurd h.1 (by decide)
    have hquote : ¬QuoteBeforeEdge encodeRaw (symbols s) := by
      rintro ⟨init, c, -, hc⟩
      rw [show enabled encodeRaw rightRules = [] by decide] at hc
      cases hc
    exact ⟨fun _ => ⟨hclash, hquote⟩, fun _ => rfl⟩
  · exact decode_encode_of_ne hraw s

/-- With spaces at the end replaced, the quote and a space come back as the quote and the symbol for a space. With dots
and full stops at the beginning replaced, a full stop and a fullwidth one come back as two dots. -/
theorem decode_encode_quote_space :
    (let mask := 1#64 <<< Flag.rightSpace.bit;
      decode mask (encode mask (bytes (chars [quoteRune, ' ']))) = bytes (chars [quoteRune, '␠']) ∧
        decode mask (encode mask (bytes (chars [quoteRune, ' ']))) ≠ bytes (chars [quoteRune, ' '])) ∧
      (let mask := 1#64 <<< Flag.dot.bit ||| 1#64 <<< Flag.leftPeriod.bit;
        decode mask (encode mask (bytes (chars ['.', '．']))) = bytes (chars ['.', '.']) ∧
          decode mask (encode mask (bytes (chars ['.', '．']))) ≠ bytes (chars ['.', '．'])) := by
  refine ⟨⟨?_, ?_⟩, ?_, ?_⟩ <;> decide +kernel

end ZClone.Encoder
