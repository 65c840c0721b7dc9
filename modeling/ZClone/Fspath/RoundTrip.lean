import ZClone.Fspath.Basic

/-!
# Connection strings are read as they were printed

- `loop_pass`: a stretch of characters that only moves the position on.
- `loop_entry`: one printed parameter, then `loop_entries` all of them.
- `loop_splits`: along the loop, what was passed and what is left make up the path.
- `parse_printed_config` is the round trip.
-/

namespace ZClone.Fspath

open Utf8 List

/-! ## Text -/

theorem text_append (s t : List Char) : text (s ++ t) = text s ++ text t := by
  rw [text, chars, map_append, bytes_append]
  rfl

theorem text_cons (c : Char) (s : List Char) : text (c :: s) = encodeRune c ++ text s := rfl

theorem text_eq_nil {s : List Char} : text s = [] ↔ s = [] := by
  cases s with
  | nil => exact ⟨fun _ => rfl, fun _ => rfl⟩
  | cons c s =>
    rw [text_cons, append_eq_nil_iff]
    exact ⟨fun h => absurd h.1 (encodeRune_ne_nil c), nofun⟩

theorem symbols_text (s : List Char) : symbols (text s) = chars s := symbols_bytes (valid_chars s).stable

theorem text_injective {s t : List Char} (h : text s = text t) : s = t := by
  have hsymbols := congrArg symbols h
  rw [symbols_text, symbols_text] at hsymbols
  exact map_injective_iff.mpr (fun _ _ => Symbol.char.inj) hsymbols

/-! ## Moving on -/

theorem Scan.pass_nil (s : Scan) : s.pass [] = s := by simp [Scan.pass]

theorem Scan.pass_pass (s : Scan) (a b : Text) : (s.pass a).pass b = s.pass (a ++ b) := by
  simp [Scan.pass, append_assoc]

variable {es : List (List Char × List Char)} {e : List Char × List Char} {name : List Char} {c : Simple} {x : Char}
  {parsed : Parsed}

section

variable {env : Env} {path : Text} {s s' : Scan} {value key : List Char}

theorem loop_next {x : Symbol} (h : turn env path s x = .next s') (rest : List Symbol) :
    loop env path s (x :: rest) = loop env path s' rest := by rw [loop, h]

/-- Characters that the state only passes. -/
theorem loop_pass {state : State} {S : Char → Prop}
    (hturn : ∀ s c, s.state = state → S c → turn env path s (.char c) = .next (s.pass (encodeRune c)))
    {cs : List Char} (hcs : ∀ c ∈ cs, S c) {s : Scan} (hs : s.state = state) (rest : List Symbol) :
    loop env path s (chars cs ++ rest) = loop env path (s.pass (text cs)) rest := by
  induction cs generalizing s with
  | nil =>
    change loop env path s rest = loop env path (s.pass []) rest
    rw [Scan.pass_nil]
  | cons c cs ih =>
    change loop env path s (.char c :: (chars cs ++ rest)) = _
    rw [loop_next (hturn s c hs (hcs c mem_cons_self)),
      @ih (fun d hd => hcs d (mem_cons_of_mem c hd)) (s.pass (encodeRune c)) hs, Scan.pass_pass]
    rfl

/-! ## Names -/

/-- The characters of names. -/
def NameChar (c : Char) : Prop := c ≠ ':' ∧ c ≠ ',' ∧ c ≠ '/' ∧ c ≠ '\\'

theorem nameChar_of_contains {c : Char}
    (h : (⟨false, wordRanges env ++ [('-', '-'), (' ', ' ')]⟩ : Regexp.CharSet).contains c = true) : NameChar c := by
  obtain ⟨r, hr, hlow, hhigh⟩ := Regexp.CharSet.contains_iff.mp h
  have hlow' : r.1.toNat ≤ c.toNat := hlow
  have hhigh' : c.toNat ≤ r.2.toNat := hhigh
  have hascii : ∀ r ∈ [('0', '9'), ('A', 'Z'), ('_', '_'), ('a', 'z'), ('.', '.'), ('+', '+'), ('@', '@'), ('-', '-'),
      (' ', ' ')], ∀ d ∈ [':', ',', '/', '\\'], ¬(r.1.toNat ≤ d.toNat ∧ d.toNat ≤ r.2.toNat) := by simp
  have hreserved : ∀ d ∈ [':', ',', '/', '\\'], c ≠ d := by
    rintro d hd rfl
    by_cases hunicode : r ∈ env.unicode
    · have hlt : ∀ d ∈ [':', ',', '/', '\\'], d.toNat < 0x80 := forall_mem_of_all (by decide)
      have hge := env.unicode_ge r hunicode
      have hlt' := hlt c hd
      omega
    · refine hascii r ?_ c hd ⟨hlow', hhigh'⟩
      simp only [wordRanges, mem_append, hunicode, or_false] at hr
      simpa only [mem_cons, not_mem_nil, or_false, or_assoc] using hr
  exact ⟨hreserved _ (by decide), hreserved _ (by decide), hreserved _ (by decide), hreserved _ (by decide)⟩

theorem contains_mono {ranges ranges' : List (Char × Char)} (h : ranges ⊆ ranges') {c : Char}
    (hc : (⟨false, ranges⟩ : Regexp.CharSet).contains c = true) :
    (⟨false, ranges'⟩ : Regexp.CharSet).contains c = true := by
  obtain ⟨r, hr, hrange⟩ := Regexp.CharSet.contains_iff.mp hc
  exact Regexp.CharSet.contains_iff.mpr ⟨r, h hr, hrange⟩

theorem plain_configNameRe : (configNameRe env).Plain NameChar := by
  have hword : ∀ c, (⟨false, wordRanges env⟩ : Regexp.CharSet).contains c = true → NameChar c :=
    fun c hc => nameChar_of_contains (contains_mono (subset_append_left _ _) hc)
  have hdash : ∀ c, (⟨false, wordRanges env ++ [('-', '-')]⟩ : Regexp.CharSet).contains c = true → NameChar c :=
    fun c hc => nameChar_of_contains (contains_mono (fun r hr => by simp only [mem_append, mem_cons] at *; tauto) hc)
  have hspace : ∀ c, (⟨false, [(' ', ' '), ('-', '-')]⟩ : Regexp.CharSet).contains c = true → NameChar c :=
    fun c hc => @nameChar_of_contains env _ (contains_mono (by simp) hc)
  exact ⟨⟨hword, hword⟩, ⟨hspace, hspace⟩, hdash, hdash⟩

/-- The name of a remote, or a colon and the name of a backend. -/
def ValidName (env : Env) (name : List Char) : Prop :=
  (Regexp.Re.seq .start (.seq (.alt (Regexp.literal ':') .eps) (.seq (configNameRe env) .stop))).matchString name = true

instance (name : List Char) : Decidable (ValidName env name) := inferInstanceAs (Decidable (_ = true))

/-- A valid name is a name behind an optional colon. -/
theorem ValidName.exists_core (h : ValidName env name) : ∃ colon core b b',
    name = colon ++ core ∧ (colon = [] ∨ colon = [':']) ∧
      (∀ more, Regexp.Matches (.alt (Regexp.literal ':') .eps) ⟨true, name ++ more⟩ ⟨b, core ++ more⟩) ∧
        Regexp.Matches (configNameRe env) ⟨b, core⟩ ⟨b', []⟩ := by
  obtain ⟨before, rest, rfl, q, hmatch⟩ := Regexp.matchString_iff.mp h
  cases hmatch with
  | seq hstart hrest =>
    obtain rfl : before = [] := by
      cases before with
      | nil => rfl
      | cons c before => cases hstart
    cases hstart
    cases hrest with
    | seq hcolon hrest =>
      cases hrest with
      | @seq _ _ mid last _ hcore hstop =>
        cases hstop
        cases hcolon with
        | altLeft hcolon =>
          cases hcolon with
          | set s b c cs hc =>
            obtain ⟨r, hr, hle, hge⟩ := Regexp.CharSet.contains_iff.mp hc
            rw [mem_singleton.mp hr] at hle hge
            have hc' : c = ':' := Char.le_antisymm hge hle
            subst hc'
            exact ⟨[':'], cs, _, _, rfl, .inr rfl, fun more => .altLeft (.set _ _ _ _ hc), hcore⟩
        | altRight heps =>
          cases heps
          exact ⟨[], rest, _, _, rfl, .inl rfl, fun more => .altRight (.eps _), hcore⟩

theorem matches_plus_ne_nil {s : Regexp.CharSet} {p q : Regexp.Pos} (h : Regexp.Matches (plus s) p q) :
    p.rest ≠ [] := by
  cases h with
  | seq hfirst _ =>
    cases hfirst
    exact cons_ne_nil _ _

/-- A name is not empty and has no separators. -/
theorem nameChar_of_matches {core : List Char} {b b' : Bool}
    (h : Regexp.Matches (configNameRe env) ⟨b, core⟩ ⟨b', []⟩) :
    core ≠ [] ∧ ∀ c ∈ core, NameChar c := by
  obtain ⟨taken, htaken, hchars⟩ := h.exists_taken (plain_configNameRe)
  obtain rfl : core = taken := by simpa using htaken
  refine ⟨?_, hchars⟩
  cases h with
  | seq hplus _ => exact matches_plus_ne_nil hplus

theorem ValidName.check (h : ValidName env name) : checkRemoteName env (text name ++ text [':']) = .ok () := by
  obtain ⟨colon, core, b, b', rfl, hcolon, halt, hcore⟩ := h.exists_core
  obtain ⟨hne, hchars⟩ := nameChar_of_matches hcore
  have hname : ∀ t, t = [':'] ∨ t = [':', ':'] → colon ++ core ++ [':'] ≠ t := by
    intro t ht heq
    have hmem : ∀ c ∈ t, c = ':' := by
      obtain rfl | rfl := ht <;> simp
    obtain ⟨c, core', rfl⟩ := exists_cons_of_ne_nil hne
    exact (hchars c mem_cons_self).1 (hmem c (heq ▸ by simp))
  rw [checkRemoteName, ← text_append, if_neg, if_pos]
  · rw [symbols_text]
    have hrune : (chars (colon ++ core ++ [':'])).map Symbol.rune = colon ++ core ++ [':'] := by
      simp [chars, Function.comp_def, Symbol.rune]
    rw [hrune, Regexp.matchString_iff]
    refine ⟨[], _, rfl, ⟨false, []⟩,
      .seq (.start _) (.seq (halt [':']) (.seq (hcore.extend (plain_configNameRe) [':']) ?_))⟩
    exact .altLeft (.seq (.set _ _ _ _ (by decide)) (.stop _))
  · rintro (heq | heq)
    · exact hname _ (.inl rfl) (text_injective heq)
    · exact hname _ (.inr rfl) (text_injective heq)

/-- The loop up to the comma behind a valid name. -/
theorem loop_name (h : ValidName env name) (rest : List Symbol) : loop env path .start (chars (name ++ [',']) ++ rest) =
      loop env path ⟨.param, text (name ++ [',']), [], text name, some .empty, '\x00', [], false⟩ rest := by
  have hcheck := h.check
  obtain ⟨colon, core, b, b', rfl, hcolon, -, hcore⟩ := h.exists_core
  obtain ⟨-, hchars⟩ := nameChar_of_matches hcore
  have hpass : ∀ s c, s.state = .configName → NameChar c →
      turn env path s (.char c) = .next (s.pass (encodeRune c)) := by
    rintro s c hs ⟨hcol, hcomma, hslash, hback⟩
    rw [turn, hs]
    change turnConfigName env path s (.char c) = _
    simp only [turnConfigName, Symbol.rune, hcol, hcomma, hslash, hback, and_false, or_self, if_false]
    rfl
  have hfirst : ∀ more, loop env path .start (chars (colon ++ more) ++ rest) =
      loop env path (Scan.start.pass (text colon)) (chars more ++ rest) := by
    intro more
    obtain rfl | rfl := hcolon
    · rfl
    · have hturn : turn env path .start (.char ':') = .next (Scan.start.pass (text [':'])) := by
        rw [turn]
        exact if_pos ⟨rfl, rfl⟩
      exact loop_next hturn _
  have hcomma : ∀ s, s.state = .configName → s.before = text (colon ++ core) → turn env path s (.char ',') =
      .next { s.pass (encodeRune ',') with state := .param, name := s.before, config := some .empty, part := [] } := by
    intro s hs hbefore
    rw [← hbefore] at hcheck
    rw [turn, hs]
    change turnConfigName env path s (.char ',') = _
    rw [turnConfigName, if_neg fun h => absurd h.2 (by decide), if_neg (by decide), if_pos (.inr rfl), hcheck]
    rfl
  rw [append_assoc, hfirst, chars, map_append, ← chars, append_assoc, loop_pass hpass hchars rfl]
  refine (loop_next (hcomma _ rfl (by simp [Scan.pass, Scan.start, text_append])) rest).trans ?_
  simp [Scan.pass, Scan.start, text_append]
  rfl

/-! ## Parameters -/

/-- What the loop does behind a value. -/
def Scan.finish (env : Env) (path : Text) (s : Scan) (x : Symbol) (rest : List Symbol) : Except Error Parsed :=
  match s.endValue x with
  | .next s' => loop env path s' rest
  | .leave result => result
  | .done s' => .ok ⟨s'.name, s'.before, toSlash env (bytes rest), s'.config⟩

theorem loop_finish {x : Symbol} (h : turn env path s x = s'.endValue x) (rest : List Symbol) :
    loop env path s (x :: rest) = s'.finish env path x rest := by
  rw [loop, h]
  rfl

theorem finish_colon (s : Scan) (rest : List Symbol) :
    s.finish env path (.char ':') rest = .ok ⟨s.name, s.before, toSlash env (bytes rest), s.config⟩ := rfl

theorem finish_comma (s : Scan) (rest : List Symbol) : s.finish env path (.char ',') rest =
    loop env path { s.pass (text [',']) with state := .param, part := [] } rest := rfl

/-- The characters behind a value. -/
def Ends (x : Char) : Prop := x = ':' ∨ x = ','

/-- A parameter was read: the scan `s'` differs from `s` by the position and the entry. -/
structure Reads (s s' : Scan) (printed key value : Text) : Prop where
  name : s'.name = s.name
  before : s'.before = s.before ++ printed
  config : s'.config = s.config.map fun c => c.set key value

theorem loop_key (hkey : ∀ c ∈ key, isConfigParam c = true) (hs : s.state = .param)
    (rest : List Symbol) : loop env path s (chars key ++ rest) = loop env path (s.pass (text key)) rest := by
  refine loop_pass (fun s c hs hc => ?_) hkey hs rest
  have hne : ∀ d ∈ [':', ',', '='], c ≠ d := by
    rintro d hd rfl
    have hnot : ∀ d ∈ [':', ',', '='], isConfigParam d = false := forall_mem_of_all (by decide)
    rw [hnot c hd] at hc
    cases hc
  rw [turn, hs]
  change turnParam s (.char c) = _
  simp only [turnParam, Symbol.rune, hne ':' (by decide), hne ',' (by decide), hne '=' (by decide), hc, or_self,
    if_false, if_true]
  rfl

/-- The characters of values that are printed without quotes. -/
def BareChar (c : Char) : Prop := c ≠ singleQuote ∧ c ≠ doubleQuote ∧ c ≠ ':' ∧ c ≠ ','

theorem loop_bare (hvalue : ∀ c ∈ value, BareChar c)
    (hs : s.state = .value) (hpart : s.part = []) (hx : Ends x) (rest : List Symbol) :
    ∃ s', Reads s s' (text value) s.param (text value) ∧
      loop env path s (chars value ++ .char x :: rest) = s'.finish env path (.char x) rest := by
  have hpass : ∀ s c, s.state = .value → BareChar c → turn env path s (.char c) = .next (s.pass (encodeRune c)) := by
    rintro s c hs ⟨hsingle, hdouble, hcolon, hcomma⟩
    rw [turn, hs]
    change turnValue s (.char c) = _
    simp only [turnValue, Symbol.rune, hsingle, hdouble, hcolon, hcomma, or_self, if_false]
    rfl
  have hend : turn env path (s.pass (text value)) (.char x) =
      ((s.pass (text value)).store (text value)).endValue (.char x) := by
    have hx' : ¬(x = singleQuote ∨ x = doubleQuote) := by obtain rfl | rfl := hx <;> decide
    have hpart' : (s.pass (text value)).part = text value := by simp [Scan.pass, hpart]
    rw [turn, show (s.pass (text value)).state = .value from hs]
    change turnValue (s.pass (text value)) (.char x) = _
    simp only [turnValue, Symbol.rune, hx', show x = ':' ∨ x = ',' from hx, hpart', if_false, if_true]
  refine ⟨(s.pass (text value)).store (text value), ⟨rfl, rfl, rfl⟩, ?_⟩
  rw [loop_pass hpass hvalue hs, loop_finish hend]

/-- A value with its quotes doubled. -/
def double (value : List Char) : List Char := value.flatMap fun c => if c = singleQuote then [c, c] else [c]

theorem undouble_append {quote : UInt8} : ∀ {a b : Text}, quote ∉ a → undouble quote (a ++ b) = a ++ undouble quote b
  | [], _, _ => rfl
  | [x], [], _ => rfl
  | [x], y :: b, h => by
    have hx : x ≠ quote := fun heq => h (heq ▸ mem_cons_self)
    change undouble quote (x :: y :: b) = _
    rw [undouble, if_neg fun hand => hx hand.1]
    rfl
  | x :: y :: a, b, h => by
    have hx : x ≠ quote := fun heq => h (heq ▸ mem_cons_self)
    have ih : undouble quote ((y :: a) ++ b) = (y :: a) ++ undouble quote b :=
      undouble_append fun hmem => h (mem_cons_of_mem x hmem)
    change undouble quote (x :: y :: (a ++ b)) = _
    rw [undouble, if_neg fun hand => hx hand.1]
    exact congrArg (x :: ·) ih

theorem notMem_encodeRune {c : Char} (h : c ≠ singleQuote) : (0x27 : UInt8) ∉ encodeRune c := by
  intro hmem
  have hnat := toNat_of_mem_encodeRune hmem (by decide)
  exact h (Char.ext (UInt32.toNat_inj.mp hnat.symm))

theorem double_cons (c : Char) (value : List Char) :
    double (c :: value) = (if c = singleQuote then [c, c] else [c]) ++ double value := rfl

/-- Doubled quotes are made single again. -/
theorem undouble_double (value : List Char) : undouble 0x27 (text (double value)) = text value := by
  induction value with
  | nil => rfl
  | cons c value ih =>
    rw [double_cons, text_append]
    split_ifs with hc
    · subst hc
      change undouble 0x27 (0x27 :: 0x27 :: text (double value)) = _
      rw [undouble, if_pos ⟨rfl, rfl⟩, ih]
      rfl
    · change undouble 0x27 ((encodeRune c ++ []) ++ text (double value)) = _
      rw [append_nil, undouble_append (notMem_encodeRune hc), ih]
      rfl

theorem double_of_notMem (h : singleQuote ∉ value) : double value = value := by
  induction value with
  | nil => rfl
  | cons c value ih =>
    rw [double_cons, if_neg (show c ≠ singleQuote from fun heq => h (heq ▸ mem_cons_self)),
      ih fun hmem => h (mem_cons_of_mem c hmem)]
    rfl

theorem turn_quotedValue_quote (hs : s.state = .quotedValue) (hquote : s.quote = singleQuote) :
    turn env path s (.char singleQuote) = .next { s.pass (encodeRune singleQuote) with state := .afterQuote } := by
  rw [turn, hs]
  exact if_pos hquote.symm

theorem turn_afterQuote_quote (hs : s.state = .afterQuote) (hquote : s.quote = singleQuote) :
    turn env path s (.char singleQuote) =
      .next { s.pass (encodeRune singleQuote) with state := .quotedValue, doubled := true } := by
  rw [turn, hs]
  change turnAfterQuote s (.char singleQuote) = _
  rw [turnAfterQuote, if_neg (by decide), if_pos (show (Symbol.char singleQuote).rune = s.quote from hquote.symm)]
  rfl

/-- Between the quotes: doubled quotes are passed and remembered. -/
theorem loop_double (value : List Char) (hs : s.state = .quotedValue) (hquote : s.quote = singleQuote)
    (rest : List Symbol) : loop env path s (chars (double value) ++ rest) =
      loop env path { s.pass (text (double value)) with doubled := s.doubled || decide (singleQuote ∈ value) }
        rest := by
  induction value generalizing s with
  | nil =>
    have hnil : decide (singleQuote ∈ []) = false := by simp
    rw [hnil, Bool.or_false]
    change loop env path s rest = loop env path (s.pass []) rest
    rw [Scan.pass_nil]
  | cons c value ih =>
    rw [double_cons]
    split_ifs with hc
    · -- the quote closes the value, the next one opens it again
      subst hc
      change loop env path s (.char singleQuote :: .char singleQuote :: (chars (double value) ++ rest)) = _
      refine (loop_next (turn_quotedValue_quote hs hquote) _).trans ?_
      refine (loop_next (turn_afterQuote_quote ?_ ?_) _).trans ?_
      · rfl
      · exact hquote
      refine (ih ?_ ?_).trans ?_
      · rfl
      · exact hquote
      simp only [Scan.pass, text_append, append_assoc, mem_cons_self, decide_true, Bool.or_true, Bool.true_or]
      rw [← hs]
      rfl
    · have hturn : turn env path s (.char c) = .next (s.pass (encodeRune c)) := by
        rw [turn, hs]
        exact if_neg fun heq => hc (heq.trans hquote)
      have hmem : (singleQuote ∈ c :: value) ↔ singleQuote ∈ value := by
        rw [mem_cons, or_iff_right (Ne.symm hc)]
      change loop env path s (.char c :: (chars (double value) ++ rest)) = _
      refine (loop_next hturn _).trans ((@ih (s.pass (encodeRune c)) hs hquote).trans ?_)
      rw [Scan.pass_pass]
      simp only [hmem]
      rfl

/-- A value between quotes. -/
theorem loop_quoted (value : List Char) (hs : s.state = .value) (hpart : s.part = []) (hx : Ends x)
    (rest : List Symbol) :
    ∃ s', Reads s s' (text ([singleQuote] ++ double value ++ [singleQuote])) s.param (text value) ∧
      loop env path s (chars ([singleQuote] ++ double value ++ [singleQuote]) ++ .char x :: rest) =
        s'.finish env path (.char x) rest := by
  -- the opening quote
  have hopen : turn env path s (.char singleQuote) =
      .next { s.pass (encodeRune singleQuote) with
        state := .quotedValue, quote := singleQuote, part := [], doubled := false } := by
    rw [turn, hs]
    change turnValue s (.char singleQuote) = _
    rw [turnValue, if_pos (.inl rfl), if_pos hpart]
    rfl
  let opened : Scan :=
    { s.pass (encodeRune singleQuote) with state := .quotedValue, quote := singleQuote, part := [], doubled := false }
  let inside : Scan := { opened.pass (text (double value)) with doubled := decide (singleQuote ∈ value) }
  let closed : Scan := { inside.pass (encodeRune singleQuote) with state := .afterQuote }
  have hvalue : (if closed.doubled then undouble (.ofNat closed.quote.toNat) closed.part.dropLast
      else closed.part.dropLast) = text value := by
    have hpart' : closed.part.dropLast = text (double value) := by
      change ([] ++ text (double value) ++ [0x27]).dropLast = _
      rw [dropLast_concat, nil_append]
    rw [hpart']
    by_cases hmem : singleQuote ∈ value
    · rw [show closed.doubled = true from decide_eq_true hmem, if_pos rfl]
      exact undouble_double value
    · rw [show closed.doubled = false from decide_eq_false hmem, if_neg Bool.false_ne_true, double_of_notMem hmem]
  have hend : turn env path closed (.char x) = (closed.store (text value)).endValue (.char x) := by
    change turnAfterQuote closed (.char x) = _
    rw [turnAfterQuote, if_pos (show (Symbol.char x).rune = ':' ∨ (Symbol.char x).rune = ',' from hx)]
    dsimp only
    rw [hvalue]
  refine ⟨closed.store (text value), ⟨rfl, ?_, rfl⟩, ?_⟩
  · change s.before ++ text [singleQuote] ++ text (double value) ++ text [singleQuote] = _
    rw [text_append, text_append, append_assoc, append_assoc, append_assoc]
  · have hsplit : chars ([singleQuote] ++ double value ++ [singleQuote]) ++ .char x :: rest =
        .char singleQuote :: (chars (double value) ++ .char singleQuote :: .char x :: rest) := by simp [chars]
    rw [hsplit, loop_next hopen, loop_double value rfl rfl]
    change loop env path inside _ = _
    rw [loop_next (turn_quotedValue_quote rfl rfl), loop_finish hend]

/-- A printed parameter. -/
def entryChars (human : Bool) (e : List Char × List Char) : List Char :=
  if human ∧ e.2 = ['t', 'r', 'u', 'e'] then e.1
  else
    e.1 ++ ['='] ++
      if ¬human ∨ ∃ c ∈ [singleQuote, doubleQuote, ':', '=', ','],
        c ∈ e.2 then [singleQuote] ++ double e.2 ++ [singleQuote]
      else e.2

def entryText (e : List Char × List Char) : Text × Text := (text e.1, text e.2)

theorem quoted_text (value : List Char) :
    quoted (text value) = text ([singleQuote] ++ double value ++ [singleQuote]) := by
  have hinner : (chars value).flatMap (fun x => encodeRune x.rune ++ if x.rune = singleQuote then encodeRune x.rune
      else []) = text (double value) := by
    induction value with
    | nil => rfl
    | cons c value ih =>
      change (encodeRune c ++ if c = singleQuote then encodeRune c else []) ++ (chars value).flatMap _ = _
      rw [ih, double_cons, text_append]
      congr 1
      split_ifs
      · change _ = encodeRune c ++ (encodeRune c ++ [])
        rw [append_nil]
      · rfl
  rw [quoted, symbols_text, hinner, text_append, text_append]

theorem printEntry_text (human : Bool) (e : List Char × List Char) :
    printEntry human (entryText e) = text (entryChars human e) := by
  have htrue : text e.2 = text ['t', 'r', 'u', 'e'] ↔ e.2 = ['t', 'r', 'u', 'e'] := ⟨text_injective, congrArg text⟩
  have hmem : ∀ c, .char c ∈ symbols (text e.2) ↔ c ∈ e.2 := by
    intro c
    rw [symbols_text]
    simp [chars]
  simp only [printEntry, entryChars, entryText, htrue, hmem, quoted_text]
  split_ifs
  · rfl
  · rw [text_append (e.1 ++ ['=']), text_append e.1]
  · rw [text_append (e.1 ++ ['=']), text_append e.1]

/-- The parameter has a name that `Parse` takes. -/
def ValidEntry (e : List Char × List Char) : Prop := e.1 ≠ [] ∧ ∀ c ∈ e.1, isConfigParam c = true

/-- Behind the name of a parameter and the sign. -/
def Scan.atValue (s : Scan) (key : List Char) : Scan :=
  { (s.pass (text key)).pass (text ['=']) with state := .value, param := text key, part := [] }

theorem loop_sign (hne : key ≠ []) (hkey : ∀ c ∈ key, isConfigParam c = true)
    (hs : s.state = .param) (hpart : s.part = []) (rest : List Symbol) :
    loop env path s (chars (key ++ ['=']) ++ rest) = loop env path (s.atValue key) rest := by
  have hpart' : (s.pass (text key)).part = text key := by simp [Scan.pass, hpart]
  have hturn : turn env path (s.pass (text key)) (.char '=') = .next (s.atValue key) := by
    rw [turn, show (s.pass (text key)).state = .param from hs]
    change turnParam (s.pass (text key)) (.char '=') = _
    rw [turnParam, if_pos (.inr (.inr rfl)), hpart', if_neg fun h => hne (text_eq_nil.mp h),
      if_pos (show (Symbol.char '=').rune = '=' from rfl)]
    rfl
  rw [chars, map_append, ← chars, append_assoc, loop_key hkey hs]
  exact loop_next hturn rest

/-- One printed parameter and the character behind it. -/
theorem loop_entry (human : Bool) (he : ValidEntry e) (hs : s.state = .param)
    (hpart : s.part = []) (hx : Ends x) (rest : List Symbol) :
    ∃ s', Reads s s' (text (entryChars human e)) (text e.1) (text e.2) ∧
      loop env path s (chars (entryChars human e) ++ .char x :: rest) = s'.finish env path (.char x) rest := by
  obtain ⟨key, value⟩ := e
  obtain ⟨hne, hkey⟩ := he
  have hpart' : (s.pass (text key)).part = text key := by simp [Scan.pass, hpart]
  have hne' : text key ≠ [] := fun h => hne (text_eq_nil.mp h)
  -- behind the sign there is a value
  have hsign : ∀ {printed : List Char}, (∃ s', Reads (s.atValue key) s' (text printed) (text key) (text value) ∧
      loop env path (s.atValue key) (chars printed ++ .char x :: rest) = s'.finish env path (.char x) rest) →
      ∃ s', Reads s s' (text (key ++ ['='] ++ printed)) (text key) (text value) ∧
        loop env path s (chars (key ++ ['='] ++ printed) ++ .char x :: rest) = s'.finish env path (.char x) rest := by
    rintro printed ⟨s', hreads, hloop⟩
    refine ⟨s', ⟨hreads.name, ?_, hreads.config⟩, ?_⟩
    · rw [hreads.before, text_append (key ++ ['=']), ← append_assoc, text_append key, ← append_assoc]
      rfl
    · rw [chars, map_append, ← chars, ← chars, append_assoc, loop_sign hne hkey hs hpart, hloop]
  rw [entryChars]
  split_ifs with htrue hquoted
  · -- `true` is not printed
    obtain ⟨-, rfl⟩ := htrue
    have hx' : x ≠ '=' := by obtain rfl | rfl := hx <;> decide
    have hend : turn env path (s.pass (text key)) (.char x) =
        (Scan.store { s.pass (text key) with param := text key } (text ['t', 'r', 'u', 'e'])).endValue (.char x) := by
      rw [turn, show (s.pass (text key)).state = .param from hs]
      change turnParam (s.pass (text key)) (.char x) = _
      simp only [turnParam, Symbol.rune, hpart', hne', hx', or_false, show x = ':' ∨ x = ',' from hx, if_true, if_false]
    refine ⟨.store { s.pass (text key) with param := text key } (text ['t', 'r', 'u', 'e']), ⟨rfl, rfl, rfl⟩, ?_⟩
    rw [loop_key hkey hs, loop_finish hend]
  · exact hsign (loop_quoted value (s := s.atValue key) rfl rfl hx rest)
  · have hvalue : ∀ c ∈ value, BareChar c := by
      intro c hc
      have hnot : ∀ d ∈ [singleQuote, doubleQuote, ':', '=', ','], c ≠ d := by
        rintro d hd rfl
        exact hquoted (.inr ⟨c, hd, hc⟩)
      exact ⟨hnot _ (by decide), hnot _ (by decide), hnot _ (by decide), hnot _ (by decide)⟩
    exact hsign (loop_bare hvalue (s := s.atValue key) rfl rfl hx rest)

/-- Printed parameters with commas between them. -/
def entriesChars (human : Bool) (e : List Char × List Char) (es : List (List Char × List Char)) : List Char :=
  entryChars human e ++ es.flatMap fun e => ',' :: entryChars human e

/-- All parameters and the colon behind them. -/
theorem loop_entries (human : Bool) : ∀ {e : List Char × List Char} {s : Scan} {c : Simple},
    (∀ e' ∈ e :: es, ValidEntry e') → s.state = .param → s.part = [] → s.config = some c → ∀ rest : List Symbol,
      loop env path s (chars (entriesChars human e es) ++ .char ':' :: rest) =
        .ok ⟨s.name, s.before ++ text (entriesChars human e es),
          toSlash env (bytes rest), some ((e :: es).foldl (fun c e => c.set (text e.1) (text e.2)) c)⟩ := by
  induction es with
  | nil =>
    intro e s c hvalid hs hpart hc rest
    obtain ⟨s', hreads, hloop⟩ := loop_entry human (hvalid e mem_cons_self) hs hpart (.inl rfl) rest
    rw [entriesChars, flatMap_nil, append_nil, hloop, finish_colon, hreads.name, hreads.before, hreads.config, hc]
    rfl
  | cons e' es ih =>
    intro e s c hvalid hs hpart hc rest
    obtain ⟨s', hreads, hloop⟩ := loop_entry human (hvalid e mem_cons_self) hs hpart (.inr rfl)
      (chars (entriesChars human e' es) ++ .char ':' :: rest)
    have hsplit : chars (entriesChars human e (e' :: es)) ++ .char ':' :: rest =
        chars (entryChars human e) ++ .char ',' :: (chars (entriesChars human e' es) ++ .char ':' :: rest) := by
      simp [chars, entriesChars]
    have hnext := @ih e' { s'.pass (text [',']) with state := .param, part := [] } (c.set (text e.1) (text e.2))
      (fun f hf => hvalid f (mem_cons_of_mem e hf)) rfl rfl (by
        change s'.config = _
        rw [hreads.config, hc]
        rfl) rest
    rw [hsplit, hloop, finish_comma]
    refine hnext.trans ?_
    have hbefore : (s'.pass (text [','])).before ++ text (entriesChars human e' es) =
        s.before ++ text (entriesChars human e (e' :: es)) := by
      change s'.before ++ text [','] ++ _ = _
      rw [hreads.before, entriesChars, entriesChars, flatMap_cons, append_assoc, append_assoc, ← text_append,
        ← text_append]
      simp
    change Except.ok (Parsed.mk s'.name ((s'.pass (text [','])).before ++ _) _ _) = _
    rw [hreads.name, hbefore]
    rfl

end

/-! ## The printed map -/

theorem entryChars_ne_nil (human : Bool) (he : ValidEntry e) : entryChars human e ≠ [] := by
  rw [entryChars]
  split_ifs
  · exact he.1
  · simp
  · simp

theorem foldl_print (human : Bool) : ∀ {out : List Char}, out ≠ [] →
    (es.map entryText).foldl (fun out entry => (if out = [] then [] else out ++ text [',']) ++ printEntry human entry)
      (text out) = text (out ++ es.flatMap fun e => ',' :: entryChars human e) := by
  induction es with
  | nil => intro out _; simp
  | cons e es ih =>
    intro out hout
    rw [map_cons, foldl_cons, if_neg fun h => hout (text_eq_nil.mp h), printEntry_text, ← text_append,
      ← text_append, ih (by simp)]
    simp

theorem string_eq (human : Bool) (hc : c.entries = (e :: es).map entryText) (he : ValidEntry e) :
    c.string human = text (entriesChars human e es) := by
  rw [Simple.string, hc, map_cons, foldl_cons, if_pos rfl, nil_append, printEntry_text,
    foldl_print human (entryChars_ne_nil human he), entriesChars]

theorem setEntry_append {key value : Text} {entries : List (Text × Text)} (h : ∀ e ∈ entries, e.1 < key) :
    setEntry key value entries = entries ++ [(key, value)] := by
  induction entries with
  | nil => rfl
  | cons entry rest ih =>
    have hlt := h entry mem_cons_self
    have hne : key ≠ entry.1 := fun heq => List.lt_irrefl entry.1 (heq ▸ hlt)
    rw [setEntry, if_neg (List.lt_asymm hlt), if_neg hne, ih fun e he => h e (mem_cons_of_mem entry he)]
    rfl

/-- Parameters that come in order are appended. -/
theorem entries_foldl_set {es : List (Text × Text)} :
    ∀ {c : Simple}, (c.entries ++ es).Pairwise (fun a b => a.1 < b.1) →
    (es.foldl (fun c e => c.set e.1 e.2) c).entries = c.entries ++ es := by
  induction es with
  | nil => intro c _; exact (append_nil _).symm
  | cons e es ih =>
    intro c hsorted
    have hlt : ∀ e' ∈ c.entries, e'.1 < e.1 := fun e' he' => (pairwise_append.mp hsorted).2.2 e' he' e mem_cons_self
    have hset : (c.set e.1 e.2).entries = c.entries ++ [e] := setEntry_append hlt
    rw [foldl_cons, ih (by rw [hset, append_assoc]; exact hsorted), hset, append_assoc]
    rfl

theorem foldl_set_entries (c : Simple) : c.entries.foldl (fun c e => c.set e.1 e.2) .empty = c := by
  have h := @entries_foldl_set c.entries .empty c.sorted
  obtain ⟨entries, sorted⟩ := c
  generalize (Simple.mk entries sorted).entries.foldl (fun c e => c.set e.1 e.2) Simple.empty = d at h ⊢
  obtain ⟨entries', sorted'⟩ := d
  obtain rfl : entries' = entries := h
  rfl

/-- The names of the parameters can be parsed, and the values are UTF-8. -/
def ValidConfig (c : Simple) : Prop :=
  ∀ entry ∈ c.entries, ∃ e, ValidEntry e ∧ entry = entryText e

theorem ValidConfig.exists_entries (h : ValidConfig c) :
    ∃ es : List (List Char × List Char), c.entries = es.map entryText ∧ ∀ e ∈ es, ValidEntry e := by
  obtain ⟨entries, sorted⟩ := c
  dsimp only [ValidConfig] at h ⊢
  clear sorted
  induction entries with
  | nil => exact ⟨[], rfl, nofun⟩
  | cons entry entries ih =>
    obtain ⟨e, he, rfl⟩ := h entry mem_cons_self
    obtain ⟨es, rfl, hes⟩ := ih fun entry' hentry' => h entry' (mem_cons_of_mem _ hentry')
    exact ⟨e :: es, rfl, forall_mem_cons.mpr ⟨he, hes⟩⟩

section

variable {env : Env} {path : Text}

/-- A printed map is read back, with the name before it and the path behind it. -/
theorem parse_string (human : Bool) (hname : ValidName env name) (hc : ValidConfig c) (hne : c.entries ≠ [])
    (path : Text) :
    ∃ configString, parse env (text name ++ text [','] ++ c.string human ++ text [':'] ++ path) =
      .ok ⟨text name, configString, toSlash env path, some c⟩ := by
  obtain ⟨es, hentries, hvalid⟩ := hc.exists_entries
  obtain ⟨e, es, rfl⟩ := exists_cons_of_ne_nil (show es ≠ [] by rintro rfl; exact hne hentries)
  have hstring := string_eq human hentries (hvalid e mem_cons_self)
  generalize hprinted : entriesChars human e es = printed at hstring
  have hinput : text name ++ text [','] ++ c.string human ++ text [':'] ++ path =
      text (name ++ [','] ++ printed ++ [':']) ++ path := by
    rw [hstring, text_append, text_append, text_append]
  have hsymbols : symbols (text (name ++ [','] ++ printed ++ [':']) ++ path) =
      chars (name ++ [',']) ++ (chars printed ++ .char ':' :: symbols path) := by
    rw [text, symbols_chars]
    simp [chars]
  have hne' : text (name ++ [','] ++ printed ++ [':']) ++ path ≠ [] := by
    intro h
    have hnil := text_eq_nil.mp (append_eq_nil_iff.mp h).1
    simp at hnil
  have hcolon : .char ':' ∈ symbols (text (name ++ [','] ++ printed ++ [':']) ++ path) := by
    rw [hsymbols]
    simp
  have hfold : (e :: es).foldl (fun c e => c.set (text e.1) (text e.2)) .empty = c := by
    have hmap := foldl_set_entries c
    rw [hentries, foldl_map] at hmap
    exact hmap
  refine ⟨text (name ++ [',']) ++ text printed, ?_⟩
  rw [hinput, parse, if_neg hne', if_neg (not_not.mpr hcolon), hsymbols, loop_name hname, ← hprinted,
    loop_entries human hvalid rfl rfl rfl, hfold, bytes_symbols]

/-! ## Splitting -/

/-- What a turn may do to the position. -/
def Steps (env : Env) (path : Text) (s : Scan) (x : Symbol) : Turn → Prop
  | .next s' => s'.before = s.before ++ x.bytes
  | .leave (.ok parsed) => parsed = localPath env path
  | .leave (.error _) => True
  | .done s' => s'.before = s.before ∧ x = .char ':' ∧ (s.state = .configName → s.before ≠ [])

theorem steps_endValue (path : Text) {s s' : Scan} (hs : s.state ≠ .configName) (hbefore : s'.before = s.before)
    (x : Symbol) :
    Steps env path s x (s'.endValue x) := by
  rw [Scan.endValue]
  split_ifs with hx
  · exact ⟨hbefore, eq_char_of_rune (by decide) hx, fun h => absurd h hs⟩
  · exact congrArg (· ++ x.bytes) hbefore

theorem steps_turnConfigName (path : Text) (s : Scan) (x : Symbol) :
    Steps env path s x (turnConfigName env path s x) := by
  rw [turnConfigName]
  by_cases hfirst : s.before = [] ∧ x.rune = ':'
  · rw [if_pos hfirst]
    rfl
  rw [if_neg hfirst]
  cases hcheck : checkRemoteName env (s.before ++ text [':']) with
  | error e => split_ifs <;> trivial
  | ok =>
    split_ifs with hslash hhead hend hx hdrive
    · trivial
    · rfl
    · rfl
    · refine ⟨rfl, eq_char_of_rune (by decide) hx, fun _ hnil => ?_⟩
      rw [hnil, checkRemoteName, if_pos (.inl rfl)] at hcheck
      cases hcheck
    · rfl
    · rfl

theorem steps_turn (env : Env) (path : Text) (s : Scan) (x : Symbol) : Steps env path s x (turn env path s x) := by
  rw [turn]
  cases hs : s.state with
  | configName => exact steps_turnConfigName path s x
  | param =>
    have hne : s.state ≠ .configName := by rw [hs]; decide
    change Steps env path s x (turnParam s x)
    rw [turnParam]
    split_ifs
    · trivial
    · rfl
    · refine steps_endValue path hne ?_ x
      rfl
    · rfl
    · trivial
  | value =>
    have hne : s.state ≠ .configName := by rw [hs]; decide
    change Steps env path s x (turnValue s x)
    rw [turnValue]
    split_ifs
    · rfl
    · rfl
    · refine steps_endValue path hne ?_ x
      rfl
    · rfl
  | quotedValue =>
    change Steps env path s x (turnQuotedValue s x)
    rw [turnQuotedValue]
    split_ifs <;> rfl
  | afterQuote =>
    have hne : s.state ≠ .configName := by rw [hs]; decide
    change Steps env path s x (turnAfterQuote s x)
    rw [turnAfterQuote]
    split_ifs
    · refine steps_endValue path hne ?_ x
      rfl
    · refine steps_endValue path hne ?_ x
      rfl
    · rfl
    · trivial

theorem Symbol.bytes_ne_nil (x : Symbol) : x.bytes ≠ [] := by
  cases x with
  | char c => exact encodeRune_ne_nil c
  | stray b => exact cons_ne_nil _ _

/-- A local path, or the path cut at a colon. -/
def Splits (env : Env) (path : Text) (parsed : Parsed) : Prop :=
  parsed = localPath env path ∨ (parsed.configString ≠ [] ∧
    ∃ rest, path = parsed.configString ++ text [':'] ++ rest ∧ parsed.path = toSlash env rest)

theorem loop_splits {rest : List Symbol} : ∀ {s : Scan} {parsed : Parsed}, s.before ++ bytes rest = path →
    (s.before = [] → s.state = .configName) → loop env path s rest = .ok parsed → Splits env path parsed := by
  induction rest with
  | nil =>
    intro s parsed _ _ h
    cases h
  | cons x rest ih =>
    intro s parsed hpath hstate h
    have hstep := steps_turn env path s x
    rw [loop] at h
    split at h
    next s' hturn =>
      rw [hturn] at hstep
      have hbefore : s'.before = s.before ++ x.bytes := hstep
      refine ih (by rw [hbefore, append_assoc]; exact hpath) (fun hnil => ?_) h
      rw [hbefore] at hnil
      exact absurd (append_eq_nil_iff.mp hnil).2 (Symbol.bytes_ne_nil x)
    next result hturn =>
      rw [hturn, h] at hstep
      exact .inl hstep
    next s' hturn =>
      rw [hturn] at hstep
      obtain ⟨hbefore, rfl, hne⟩ := hstep
      cases h
      refine .inr ⟨?_, bytes rest, ?_, rfl⟩
      · change s'.before ≠ []
        rw [hbefore]
        exact fun hnil => hne (hstate hnil) hnil
      · change path = s'.before ++ text [':'] ++ bytes rest
        rw [hbefore, append_assoc]
        exact hpath.symm

theorem parse_splits (h : parse env path = .ok parsed) : Splits env path parsed := by
  rw [parse] at h
  split_ifs at h
  · exact @loop_splits env path _ .start parsed (bytes_symbols path) (fun _ => rfl) h
  · cases h
    exact .inl rfl

/-- `SplitFs` cuts the remote. -/
theorem splitFs_of_parse {remote : Text} (h : parse env remote = .ok parsed) :
    ∃ remoteName rest, remote = remoteName ++ rest ∧ splitFs env remote = .ok (remoteName, toSlash env rest) := by
  obtain rfl | ⟨hne, rest, hremote, hpath⟩ := parse_splits h
  · exact ⟨[], remote, rfl, by rw [splitFs, h]; rfl⟩
  · exact ⟨_, rest, hremote, by rw [splitFs, h, ← hpath]; dsimp only; rw [if_neg hne]⟩

/-- A map of parameters that is not empty is read back as it was printed by `String` and by `Human`, and the parts of a
remote make up the remote, with separators changed to slashes in the path. -/
theorem parse_printed_config (env : Env) :
    (∀ (human : Bool) (name : List Char) (c : Simple) (path : Text), ValidName env name → ValidConfig c →
      c.entries ≠ [] → ∃ configString, parse env (text name ++ text [','] ++ c.string human ++ text [':'] ++ path) =
        .ok ⟨text name, configString, toSlash env path, some c⟩) ∧
    ∀ (remote : Text) (parsed : Parsed), parse env remote = .ok parsed →
      ∃ remoteName rest parent leaf, remote = remoteName ++ rest ∧
        splitFs env remote = .ok (remoteName, toSlash env rest) ∧
        split env remote = .ok (parent, leaf) ∧ parent ++ leaf = remoteName ++ toSlash env rest := by
  constructor
  · intro human name c path hname hc hne
    exact parse_string human hname hc hne path
  · intro remote parsed h
    obtain ⟨remoteName, rest, hremote, hfs⟩ := splitFs_of_parse h
    refine ⟨remoteName, rest, _, _, hremote, hfs, by rw [split, hfs], ?_⟩
    rw [append_assoc, rdropWhile_append_rtakeWhile]

end

/-- Any system but Windows, with ASCII names. -/
def asciiEnv : Env := ⟨false, [], nofun⟩

/-- The map of one parameter whose value is a quote. -/
def quoteConfig : Simple := Simple.empty.set (text ['k']) (text [singleQuote])

/-- A value that is a quote, and a path with a colon. -/
theorem parse_printed_config_quote :
    (∃ configString, parse asciiEnv (text ['a'] ++ text [','] ++ quoteConfig.string false ++
    text [':'] ++ text ['b', ':', 'c']) = .ok ⟨text ['a'], configString, text ['b', ':', 'c'], some quoteConfig⟩) ∧
    quoteConfig.string false = text ['k', '=', singleQuote, singleQuote, singleQuote, singleQuote] := by
  refine ⟨(parse_printed_config asciiEnv).1 false ['a'] quoteConfig _ (by decide +kernel) ?_ (by decide +kernel), by
    decide +kernel⟩
  intro entry hentry
  refine ⟨(['k'], [singleQuote]), ⟨cons_ne_nil _ _, forall_mem_of_all (by decide)⟩, ?_⟩
  exact mem_singleton.mp hentry

/-- The empty map is printed as nothing, and `Parse` takes the comma for the beginning of a parameter. -/
theorem parse_printed_empty : ValidName asciiEnv ['a'] ∧ ValidConfig .empty ∧
    parse asciiEnv (text ['a'] ++ text [','] ++ Simple.empty.string false ++ text [':'] ++ []) =
      .error .emptyConfigParam := by
  refine ⟨by decide +kernel, nofun, ?_⟩
  rfl

end ZClone.Fspath
