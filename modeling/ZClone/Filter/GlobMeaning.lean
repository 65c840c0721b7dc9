import ZClone.Filter.Glob
import ZClone.Lib.Regexp

/-!
# What globs mean

- `Glob` are the globs of literals, escaped characters, wildcards and alternatives, `Glob.text` how they are written,
  and `Glob.Means` which texts they stand for.
- `Glob.run`: the loop of `globToRegexp` writes `Glob.regexp`. `Glob.parse`: that text is read as `Glob.reThen`.
- `globPathToRegexp_means`: the expression of a glob matches the paths it stands for.
-/

namespace ZClone.Filter

open Regexp List

/-! ## Globs -/

mutual

inductive GlobPart where
  | literal (c : Char)
  | escaped (c : Char)
  | question
  | star
  | stars
  | group (as : GlobAlts)

inductive Glob where
  | nil
  | cons (p : GlobPart) (g : Glob)

/-- The alternatives of a group. -/
inductive GlobAlts where
  | last (g : Glob)
  | cons (g : Glob) (as : GlobAlts)

end

mutual

def GlobPart.text : GlobPart → Text
  | .literal c => [c]
  | .escaped c => ['\\', c]
  | .question => ['?']
  | .star => ['*']
  | .stars => ['*', '*']
  | .group as => openBrace :: (as.text ++ [closeBrace])

def Glob.text : Glob → Text
  | .nil => []
  | .cons p g => p.text ++ g.text

def GlobAlts.text : GlobAlts → Text
  | .last g => g.text
  | .cons g as => g.text ++ ',' :: as.text

end

mutual

/-- The texts a part stands for; `key` is the same for characters that are the same, and `**` takes the characters in
`any`. -/
def GlobPart.Means (key : Char → Char) (any : Char → Prop) : GlobPart → Text → Prop
  | .literal c, t => ∃ d, t = [d] ∧ key d = key c
  | .escaped c, t => ∃ d, t = [d] ∧ key d = key c
  | .question, t => ∃ d, t = [d] ∧ d ≠ '/'
  | .star, t => ∀ d ∈ t, d ≠ '/'
  | .stars, t => ∀ d ∈ t, any d
  | .group as, t => as.Means key any t

def Glob.Means (key : Char → Char) (any : Char → Prop) : Glob → Text → Prop
  | .nil, t => t = []
  | .cons p g, t => ∃ u v, t = u ++ v ∧ p.Means key any u ∧ g.Means key any v

def GlobAlts.Means (key : Char → Char) (any : Char → Prop) : GlobAlts → Text → Prop
  | .last g, t => g.Means key any t
  | .cons g as, t => g.Means key any t ∨ as.Means key any t

end

def GlobPart.isStar : GlobPart → Bool
  | .star => true
  | .stars => true
  | _ => false

mutual

/-- Literals mean nothing else where they stand, and no stars stand next to others. -/
def GlobPart.Valid (grouped : Bool) : GlobPart → Prop
  | .literal c => c ∉ ['\\', '*', '?', '[', ']', openBrace, closeBrace] ∧ (grouped = true → c ≠ ',')
  | .group as => as.Valid
  | _ => True

/-- `starred` says whether stars come before. -/
def Glob.Valid (grouped starred : Bool) : Glob → Prop
  | .nil => True
  | .cons p g => p.Valid grouped ∧ (starred = true → p.isStar = false) ∧ g.Valid grouped p.isStar

def GlobAlts.Valid : GlobAlts → Prop
  | .last g => g.Valid true false
  | .cons g as => g.Valid true false ∧ as.Valid

end

mutual

/-- The parts, and those in its groups, satisfy `P`. -/
def GlobPart.All (P : GlobPart → Prop) : GlobPart → Prop
  | .group as => P (.group as) ∧ as.All P
  | p => P p

def Glob.All (P : GlobPart → Prop) : Glob → Prop
  | .nil => True
  | .cons p g => p.All P ∧ g.All P

def GlobAlts.All (P : GlobPart → Prop) : GlobAlts → Prop
  | .last g => g.All P
  | .cons g as => g.All P ∧ as.All P

end

mutual

/-- In a group no other one opens directly behind a brace; `last` is the character before. -/
def GlobPart.Clear (grouped : Bool) (last : Char) : GlobPart → Prop
  | .group as => ¬(grouped = true ∧ last = openBrace) ∧ as.Clear openBrace
  | _ => True

def Glob.Clear (grouped : Bool) (last : Char) : Glob → Prop
  | .nil => True
  | .cons p g => p.Clear grouped last ∧ g.Clear grouped (p.text.getLastD last)

def GlobAlts.Clear (last : Char) : GlobAlts → Prop
  | .last g => g.Clear true last
  | .cons g as => g.Clear true last ∧ as.Clear ','

end

/-! ## The loop -/

/-- The characters that are escaped in expressions only. -/
def escapedInRegexp : List Char := ['.', '+', '(', ')', '|', '^', '$']

mutual

def GlobPart.regexp : GlobPart → Text
  | .literal c => if c ∈ escapedInRegexp then ['\\', c] else [c]
  | .escaped c => ['\\', c]
  | .question => "[^/]".toList
  | .star => "[^/]*".toList
  | .stars => ".*".toList
  | .group as => '(' :: (as.regexp ++ [')'])

def Glob.regexp : Glob → Text
  | .nil => []
  | .cons p g => p.regexp ++ g.regexp

def GlobAlts.regexp : GlobAlts → Text
  | .last g => g.regexp
  | .cons g as => g.regexp ++ '|' :: as.regexp

end

/-- The state of the loop between parts. -/
def mid (re : Text) (stars depth : Nat) (last : Char) : GlobState :=
  { re := re, consecutiveStars := stars, braceDepth := depth, next := last }

/-- What `insertStars` writes. -/
def starText : Nat → Text
  | 1 => "[^/]*".toList
  | 2 => ".*".toList
  | _ => []

section Loop

variable {glob re text out : Text} {depth k : Nat} {last c : Char} {st st' : GlobState}

theorem foldlM_cons_ok (h : st.step glob true c = .ok st') (more : Text) :
    (c :: more).foldlM (GlobState.step glob true) st = more.foldlM (GlobState.step glob true) st' := by
  rw [foldlM_cons, h]
  rfl

theorem foldlM_append_ok (h : text.foldlM (GlobState.step glob true) st = .ok st') (more : Text) :
    (text ++ more).foldlM (GlobState.step glob true) st = more.foldlM (GlobState.step glob true) st' := by
  rw [foldlM_append, h]
  rfl

theorem insertStars_mid (hk : k ≤ 2) :
    (mid re k depth last).insertStars glob true = .ok (mid (re ++ starText k) 0 depth last) := by
  match k, hk with
  | 0, _ => simp [GlobState.insertStars, mid, starText]
  | 1, _ | 2, _ => simp [GlobState.insertStars, mid, starText, GlobState.write]

theorem step_mid (hk : k ≤ 2) (hc : c ≠ '*') : (mid re k depth last).step glob true c =
    (mid (re ++ starText k) 0 depth c).plain glob true last c := by
  have hstars : (mid re k depth c).insertStars glob true = _ := insertStars_mid hk
  simp only [mid] at hstars ⊢
  simp only [GlobState.step, Bool.false_eq_true, false_and, if_false, hc, hstars]
  rfl

/-- Between parts, the loop reads `text` and writes `out`, but for stars that it may keep if `star` is set. -/
def Wrote (glob text : Text) (depth : Nat) (last : Char) (k : Nat) (out : Text) (star : Bool) : Prop :=
  ∀ re, ∃ re' k', text.foldlM (GlobState.step glob true) (mid re k depth last) =
    .ok (mid re' k' depth (text.getLastD last)) ∧
    re' ++ starText k' = re ++ starText k ++ out ∧ k' ≤ 2 ∧ (star = false → k' = 0)

theorem Wrote.of_plain (hk : k ≤ 2) (hc : c ≠ '*')
    (h : ∀ re, (mid re 0 depth c).plain glob true last c = .ok (mid (re ++ out) 0 depth c)) :
    Wrote glob [c] depth last k out false := by
  intro re
  refine ⟨re ++ starText k ++ out, 0, ?_, by simp [starText], by omega, fun _ => rfl⟩
  rw [foldlM_cons, step_mid hk hc, h]
  rfl

end Loop

theorem plain_literal {glob : Text} {depth : Nat} {last c : Char} (h : (GlobPart.literal c).Valid (0 < depth))
    (re : Text) :
    (mid re 0 depth c).plain glob true last c = .ok (mid (re ++ (GlobPart.literal c).regexp) 0 depth c) := by
  obtain ⟨hc, hcomma⟩ := h
  simp only [mem_cons, not_mem_nil, or_false, not_or] at hc
  obtain ⟨h1, h2, h3, h4, h5, h6, h7⟩ := hc
  rw [GlobState.plain, if_neg h1, if_neg h2, if_neg h3, if_neg h4, if_neg h5, if_neg h6, if_neg h7]
  by_cases h8 : c = ','
  · subst h8
    have hdepth : ¬0 < depth := fun hd => hcomma (decide_eq_true hd) rfl
    change Except.ok ((mid re 0 depth ',').write (if 0 < depth then ['|'] else [','])) = _
    rw [if_neg hdepth]
    rfl
  · rw [if_neg h8, GlobPart.regexp]
    change (if c ∈ escapedInRegexp then _ else _) = _
    by_cases h9 : c ∈ escapedInRegexp
    · rw [if_pos h9, if_pos h9]
      rfl
    · rw [if_neg h9, if_neg h9]
      rfl

mutual

theorem GlobPart.run (glob : Text) : ∀ (p : GlobPart) {depth k : Nat} {last : Char}, p.Valid (0 < depth) → k ≤ 2 →
    (k ≠ 0 → p.isStar = false) → p.Clear (0 < depth) last → Wrote glob p.text depth last k p.regexp p.isStar
  | .literal c, depth, k, last, hp, hk, _, _ => by
    have hc : c ≠ '*' := fun h => hp.1 (by simp [h])
    exact .of_plain hk hc (plain_literal hp)
  | .escaped c, depth, k, last, _, hk, _, _ => by
    intro re
    refine ⟨re ++ starText k ++ ['\\', c], 0, ?_, by simp [starText, GlobPart.regexp], by omega, fun _ => rfl⟩
    rw [GlobPart.text, foldlM_cons, step_mid hk (by decide)]
    change Except.ok (mid (re ++ starText k ++ ['\\'] ++ [c]) 0 depth c) = _
    rw [append_assoc]
    rfl
  | .question, depth, k, last, _, hk, _, _ => .of_plain hk (by decide) fun re => rfl
  | .star, depth, k, last, _, _, hstar, _ => by
    intro re
    obtain rfl : k = 0 := by_contra fun h => by simpa [GlobPart.isStar] using hstar h
    exact ⟨re, 1, rfl, by simp [starText, GlobPart.regexp], by omega, by simp [GlobPart.isStar]⟩
  | .stars, depth, k, last, _, _, hstar, _ => by
    intro re
    obtain rfl : k = 0 := by_contra fun h => by simpa [GlobPart.isStar] using hstar h
    exact ⟨re, 2, rfl, by simp [starText, GlobPart.regexp], by omega, by simp [GlobPart.isStar]⟩
  | .group as, depth, k, last, hp, hk, _, ⟨hfirst, hbody⟩ => by
    intro re
    have hopen : (mid re k depth last).step glob true openBrace =
        .ok (mid (re ++ starText k ++ ['(']) 0 (depth + 1) openBrace) := by
      rw [step_mid hk (by decide)]
      have hnew : ¬(0 < depth ∧ last = openBrace) := fun h => hfirst ⟨decide_eq_true h.1, h.2⟩
      exact if_neg hnew
    obtain ⟨re', k', hrun, hre, hk', -⟩ := as.run glob hp (Nat.succ_pos depth) hbody (re ++ starText k ++ ['('])
    refine ⟨re' ++ starText k' ++ [')'], 0, ?_, ?_, by omega, fun _ => rfl⟩
    · have hclose : (mid re' k' (depth + 1) (as.text.getLastD openBrace)).step glob true closeBrace =
          .ok (mid (re' ++ starText k' ++ [')']) 0 depth closeBrace) := by
        rw [step_mid hk' (by decide)]
        rfl
      rw [GlobPart.text, foldlM_cons_ok hopen, foldlM_append_ok hrun, foldlM_cons_ok hclose]
      simp [getLast?_cons]
      rfl
    · rw [hre, GlobPart.regexp]
      simp [starText]

theorem Glob.run (glob : Text) : ∀ (g : Glob) {depth k : Nat} {last : Char} {starred : Bool},
    g.Valid (0 < depth) starred → k ≤ 2 → (k ≠ 0 → starred = true) → g.Clear (0 < depth) last →
    Wrote glob g.text depth last k g.regexp true
  | .nil, depth, k, last, starred, _, hk, _, _ => fun re => ⟨re, k, rfl, by simp [Glob.regexp], hk, nofun⟩
  | .cons p g, depth, k, last, starred, ⟨hp, hstarred, hg⟩, hk, hstar, ⟨hclear, hclear'⟩ => by
    intro re
    obtain ⟨re', k', hrun, hre, hk', hpending⟩ := p.run glob hp hk (fun h => hstarred (hstar h)) hclear re
    obtain ⟨re'', k'', hrun', hre', hk'', -⟩ := g.run glob hg hk'
      (fun h => by_contra fun hne => h (hpending (by simpa using hne))) hclear' re'
    refine ⟨re'', k'', ?_, ?_, hk'', nofun⟩
    · rw [Glob.text, foldlM_append_ok hrun, hrun']
      simp
    · rw [hre', hre, Glob.regexp]
      simp

theorem GlobAlts.run (glob : Text) : ∀ (as : GlobAlts) {depth : Nat} {last : Char}, as.Valid → 0 < depth →
    as.Clear last → Wrote glob as.text depth last 0 as.regexp true
  | .last g, depth, last, has, hdepth, hclear => by
    have hgrouped : decide (0 < depth) = true := decide_eq_true hdepth
    have hg : g.Valid true false := has
    have hfirst : g.Clear true last := hclear
    exact g.run glob (hgrouped ▸ hg) (Nat.zero_le 2) nofun (hgrouped ▸ hfirst)
  | .cons g as, depth, last, has, hdepth, hclear => by
    intro re
    have hgrouped : decide (0 < depth) = true := decide_eq_true hdepth
    obtain ⟨re', k', hrun, hre, hk', -⟩ := g.run glob (hgrouped ▸ has.1) (Nat.zero_le 2) nofun (hgrouped ▸ hclear.1) re
    have hcomma : (mid re' k' depth (g.text.getLastD last)).step glob true ',' =
        .ok (mid (re' ++ starText k' ++ ['|']) 0 depth ',') := by
      rw [step_mid hk' (by decide)]
      change Except.ok ((mid (re' ++ starText k') 0 depth ',').write (if 0 < depth then ['|'] else [','])) = _
      rw [if_pos hdepth]
      rfl
    obtain ⟨re'', k'', hrun', hre', hk'', -⟩ := as.run glob has.2 hdepth hclear.2 (re' ++ starText k' ++ ['|'])
    refine ⟨re'', k'', ?_, ?_, hk'', nofun⟩
    · rw [GlobAlts.text, foldlM_append_ok hrun, foldlM_cons_ok hcomma, hrun']
      simp [getLast?_cons]
    · rw [hre', hre, GlobAlts.regexp]
      simp [starText]

end

/-! ## The expression -/

mutual

def GlobPart.re? : GlobPart → Option Re
  | .literal c => some (literal c)
  | .escaped c => escape c
  | .question => some (.set ⟨true, [('/', '/')]⟩)
  | .star => some (.star (.set ⟨true, [('/', '/')]⟩))
  | .stars => some (.star (.set ⟨true, [('\n', '\n')]⟩))
  | .group as => as.re?

/-- The parts in a row, and then `tail`. -/
def Glob.reThen (tail : Re) : Glob → Option Re
  | .nil => some tail
  | .cons p g => p.re?.bind fun a => (g.reThen tail).map (.seq a)

def GlobAlts.re? : GlobAlts → Option Re
  | .last g => g.reThen .eps
  | .cons g as => (g.reThen .eps).bind fun a => as.re?.map (.alt a)

end

variable {grouped : Bool}

theorem isMeta_of_valid {c : Char} (h : (GlobPart.literal c).Valid grouped) (hc : c ∉ escapedInRegexp) :
    isMeta c = false := by
  have hspecial := h.1
  simp only [escapedInRegexp, openBrace, closeBrace, mem_cons, not_mem_nil, or_false, not_or] at hspecial hc
  simp [isMeta, hspecial, hc]

theorem GlobPart.head_regexp {p : GlobPart} (h : p.Valid grouped) (rest : Text) :
    (p.regexp ++ rest).head? ∉ [none, some ')', some '|', some '*'] := by
  cases p with
  | literal c =>
    rw [GlobPart.regexp]
    by_cases hc : c ∈ escapedInRegexp
    · rw [if_pos hc]
      simp
    · have hmeta := isMeta_of_valid h hc
      simp only [isMeta, mem_cons, not_mem_nil, or_false, decide_eq_false_iff_not, not_or] at hmeta
      rw [if_neg hc]
      simp [hmeta]
  | _ => simp [GlobPart.regexp]

theorem Glob.head_regexp {starred : Bool} {g : Glob} (h : g.Valid grouped starred) {rest : Text}
    (hrest : rest.head? ≠ some '*') : (g.regexp ++ rest).head? ≠ some '*' := by
  cases g with
  | nil => exact hrest
  | cons p g =>
    have hp := GlobPart.head_regexp h.1 (g.regexp ++ rest)
    rw [Glob.regexp, append_assoc]
    exact fun heq => hp (by simp [heq])

theorem escape_of_mem {c : Char} (h : c ∈ escapedInRegexp) : escape c = some (literal c) := by
  simp only [escapedInRegexp, mem_cons, not_mem_nil, or_false] at h
  obtain rfl | rfl | rfl | rfl | rfl | rfl | rfl := h <;> rfl

theorem parseSeq_escape {n : Nat} (c : Char) {rest : Text} (hrest : rest.head? ≠ some '*') :
    parseSeq (n + 2) ('\\' :: c :: rest) = (escape c).bind fun a => (parseSeq (n + 1) rest).map fun (b, r) =>
      (.seq a b, r) := by
  have hpiece : parsePiece (n + 1) ('\\' :: c :: rest) = (escape c).map fun a => (a, rest) := by rw [parsePiece]
  cases hescape : escape c with rw [hescape] at hpiece
  | none =>
    rw [parseSeq_of_piece (by simp), hpiece]
    rfl
  | some a =>
    exact parseSeq_plain (by simp) hpiece hrest

/-- A sequence ends where its group or the next alternative does. -/
theorem parseSeq_stop {c : Char} (hc : c = ')' ∨ c = '|') (rest : Text) (n : Nat) (hn : 2 ≤ n) :
    parseSeq n (c :: rest) = some (.eps, c :: rest) := by
  obtain ⟨n, rfl⟩ := Nat.exists_eq_add_of_le' hn
  obtain rfl | rfl := hc <;> rfl

mutual

theorem GlobPart.parse : ∀ (p : GlobPart) {grouped : Bool} {n : Nat} {rest : Text}, p.Valid grouped →
    3 * p.regexp.length + 1 ≤ n → rest.head? ≠ some '*' →
    parseSeq (n + 1) (p.regexp ++ rest) = p.re?.bind fun a => (parseSeq n rest).map fun (b, r) => (.seq a b, r)
  | .literal c, grouped, n + 1, rest, hp, _, hrest => by
    rw [GlobPart.regexp, GlobPart.re?]
    by_cases hc : c ∈ escapedInRegexp
    · rw [if_pos hc, ← escape_of_mem hc]
      exact parseSeq_escape c hrest
    · have hhead := GlobPart.head_regexp hp rest
      rw [GlobPart.regexp] at hhead
      rw [if_neg hc] at hhead ⊢
      refine parseSeq_plain (fun h => hhead ?_) (parsePiece_literal (isMeta_of_valid hp hc)) hrest
      simp only [mem_cons, not_mem_nil, or_false] at h ⊢
      tauto
  | .escaped c, grouped, n + 1, rest, _, _, hrest => parseSeq_escape c hrest
  | .question, grouped, n + 1, rest, _, _, hrest => parseSeq_plain (by simp [GlobPart.regexp]) rfl hrest
  | .star, grouped, n + 1, rest, _, _, _ => by
    have hpiece : parsePiece (n + 1) ("[^/]*".toList ++ rest) = some (.set ⟨true, [('/', '/')]⟩, '*' :: rest) := rfl
    rw [GlobPart.regexp, parseSeq_of_piece (by simp), hpiece]
    rfl
  | .stars, grouped, n + 1, rest, _, _, _ => by
    have hpiece : parsePiece (n + 1) (".*".toList ++ rest) = some (.set ⟨true, [('\n', '\n')]⟩, '*' :: rest) := rfl
    rw [GlobPart.regexp, parseSeq_of_piece (by simp), hpiece]
    rfl
  | .group as, grouped, n + 1, rest, hp, hn, hrest => by
    have hlen : 3 * as.regexp.length + 3 ≤ n := by
      simp only [GlobPart.regexp, length_cons, length_append, length_nil] at hn
      omega
    have halts := as.parse rest hp hlen
    have htext : (GlobPart.group as).regexp ++ rest = '(' :: (as.regexp ++ ')' :: rest) := by simp [GlobPart.regexp]
    have hpiece : parsePiece (n + 1) ('(' :: (as.regexp ++ ')' :: rest)) = as.re?.map fun a => (a, rest) := by
      rw [parsePiece, halts]
      cases as.re? <;> rfl
    rw [htext, GlobPart.re?]
    cases hre : as.re? with rw [hre] at hpiece
    | none =>
      rw [parseSeq_of_piece (by simp), hpiece]
      rfl
    | some a =>
      exact parseSeq_plain (by simp) hpiece hrest

theorem Glob.parse : ∀ (g : Glob) {grouped starred : Bool} {n : Nat} {rest rest' : Text} {tail : Re},
    g.Valid grouped starred → 3 * g.regexp.length + 2 ≤ n → rest.head? ≠ some '*' →
    (∀ n, 2 ≤ n → parseSeq n rest = some (tail, rest')) →
    parseSeq n (g.regexp ++ rest) = (g.reThen tail).map fun a => (a, rest')
  | .nil, grouped, starred, n, rest, rest', tail, _, hn, _, htail => htail n (by simpa [Glob.regexp] using hn)
  | .cons p g, grouped, starred, n + 1, rest, rest', tail, ⟨hp, _, hg⟩, hn, hrest, htail => by
    have hpos : 0 < p.regexp.length := by
      apply length_pos_of_ne_nil
      intro hnil
      exact absurd (GlobPart.head_regexp hp []) (by simp [hnil])
    rw [Glob.regexp, length_append] at hn
    rw [Glob.regexp, append_assoc, p.parse hp (by omega) (Glob.head_regexp hg hrest),
      g.parse hg (by omega) hrest htail, Glob.reThen]
    cases p.re? with
    | none => rfl
    | some a => cases g.reThen tail <;> rfl

theorem GlobAlts.parse : ∀ (as : GlobAlts) {n : Nat} (rest : Text), as.Valid → 3 * as.regexp.length + 3 ≤ n →
    parseAlt n (as.regexp ++ ')' :: rest) = as.re?.map fun a => (a, ')' :: rest)
  | .last g, n + 1, rest, has, hn => by
    have hlen : 3 * g.regexp.length + 2 ≤ n := Nat.le_of_succ_le_succ hn
    have hseq := g.parse has hlen (by simp) (parseSeq_stop (.inl rfl) rest)
    rw [GlobAlts.regexp, parseAlt, hseq, GlobAlts.re?]
    cases g.reThen .eps <;> rfl
  | .cons g as, n + 1, rest, has, hn => by
    simp only [GlobAlts.regexp, length_append, length_cons] at hn
    have hlen : 3 * g.regexp.length + 2 ≤ n := by omega
    have hseq := g.parse has.1 hlen (by simp) (parseSeq_stop (.inr rfl) (as.regexp ++ ')' :: rest))
    have htext : (GlobAlts.cons g as).regexp ++ ')' :: rest = g.regexp ++ '|' :: (as.regexp ++ ')' :: rest) := by
      simp [GlobAlts.regexp]
    rw [htext, parseAlt, hseq, GlobAlts.re?]
    cases g.reThen .eps with
    | none => rfl
    | some a =>
      change (parseAlt n (as.regexp ++ ')' :: rest)).map _ = _
      rw [as.parse rest has.2 (by omega)]
      cases as.re? <;> rfl

end

/-! ## What the expression matches -/

/-- The characters that mean something else behind a backslash in expressions. -/
def regexpEscapes : List Char := "01234567abdfnprstvwxzABDPQSW".toList

def PlainEscape : GlobPart → Prop
  | .escaped c => c ∉ regexpEscapes
  | _ => True

theorem escape_eq_literal {c : Char} {a : Re} (h : escape c = some a) (hc : c ∉ regexpEscapes) : a = literal c := by
  rw [escape] at h
  · split at h
    · exact (Option.some.inj h).symm
    · cases h
  all_goals
    rintro rfl
    exact absurd hc (by decide)

section Language

variable (F : Folding)

theorem contains_same (c d : Char) : (⟨false, F.close [(c, c)]⟩ : CharSet).contains d = true ↔ F.key d = F.key c := by
  rw [F.contains_close]
  constructor
  · rintro ⟨e, hkey, he⟩
    obtain ⟨r, hr, hle⟩ := CharSet.contains_iff.mp he
    cases mem_singleton.mp hr
    rw [← hkey, Char.le_antisymm hle.2 hle.1]
  · exact fun hkey => ⟨c, hkey.symm, CharSet.contains_iff.mpr ⟨_, mem_singleton_self _, Char.le_refl _, Char.le_refl _⟩⟩

theorem contains_except {c : Char} (hc : c.toNat < 0x41) (d : Char) :
    (⟨true, F.close [(c, c)]⟩ : CharSet).contains d = true ↔ d ≠ c := by
  have hsame : F.key d = F.key c ↔ d = c := ⟨F.eq_of_lt c d hc, congrArg F.key⟩
  have hnot : (⟨true, F.close [(c, c)]⟩ : CharSet).contains d = !(⟨false, F.close [(c, c)]⟩ : CharSet).contains d := by
    simp [CharSet.contains]
  rw [hnot, Bool.not_eq_true', ← Bool.not_eq_true, contains_same, hsame]

theorem denotes_literal (c : Char) :
    ((literal c).mapRanges F.close).Denotes fun t => ∃ d, t = [d] ∧ F.key d = F.key c := by
  have h := denotes_set ⟨false, F.close [(c, c)]⟩
  simp only [contains_same] at h
  exact h

mutual

theorem GlobPart.denotes : ∀ (p : GlobPart) {a : Re}, p.All PlainEscape → p.re? = some a →
    (a.mapRanges F.close).Denotes (p.Means F.key (· ≠ '\n'))
  | .literal c, a, _, ha => by
    cases ha
    exact denotes_literal F c
  | .escaped c, a, hp, ha => by
    rw [escape_eq_literal ha hp]
    exact denotes_literal F c
  | .question, a, _, ha => by
    cases ha
    have h := denotes_set ⟨true, F.close [('/', '/')]⟩
    simp only [contains_except F (show '/'.toNat < 0x41 by decide)] at h
    exact h
  | .star, a, _, ha => by
    cases ha
    have h := denotes_star_set ⟨true, F.close [('/', '/')]⟩
    simp only [contains_except F (show '/'.toNat < 0x41 by decide)] at h
    exact h
  | .stars, a, _, ha => by
    cases ha
    have h := denotes_star_set ⟨true, F.close [('\n', '\n')]⟩
    simp only [contains_except F (show '\n'.toNat < 0x41 by decide)] at h
    exact h
  | .group as, a, hp, ha => as.denotes hp.2 ha

theorem Glob.matches_iff : ∀ (g : Glob) {tail a : Re} {b : Bool} {cs : Text} {q : Pos}, g.All PlainEscape →
    g.reThen tail = some a → (Matches (a.mapRanges F.close) ⟨b, cs⟩ q ↔ ∃ taken rest, cs = taken ++ rest ∧
      g.Means F.key (· ≠ '\n') taken ∧ Matches (tail.mapRanges F.close) ⟨b && taken.isEmpty, rest⟩ q)
  | .nil, tail, a, b, cs, q, _, ha => by
    cases ha
    constructor
    · exact fun h => ⟨[], cs, rfl, rfl, by simpa using h⟩
    · rintro ⟨taken, rest, rfl, rfl, h⟩
      simpa using h
  | .cons p g, tail, a, b, cs, q, hg, ha => by
    obtain ⟨a, hre, hrest⟩ := Option.bind_eq_some_iff.mp ha
    obtain ⟨a', hre', rfl⟩ := Option.map_eq_some_iff.mp hrest
    have hp := p.denotes hg.1 hre
    have hempty : ∀ t u : Text, (t ++ u).isEmpty = (t.isEmpty && u.isEmpty) := fun t u => by cases t <;> rfl
    rw [Re.mapRanges, hp.matches_seq]
    constructor
    · rintro ⟨taken, rest, rfl, hmeans, h⟩
      obtain ⟨taken', rest', rfl, hmeans', h'⟩ := (g.matches_iff hg.2 hre').mp h
      refine ⟨taken ++ taken', rest', by simp, ⟨taken, taken', rfl, hmeans, hmeans'⟩, ?_⟩
      simpa [Bool.and_assoc, hempty] using h'
    · rintro ⟨_, rest, rfl, ⟨taken, taken', rfl, hmeans, hmeans'⟩, h⟩
      refine ⟨taken, taken' ++ rest, by simp, hmeans, (g.matches_iff hg.2 hre').mpr ⟨taken', rest, rfl, hmeans', ?_⟩⟩
      simpa [Bool.and_assoc, hempty] using h

theorem GlobAlts.denotes : ∀ (as : GlobAlts) {a : Re}, as.All PlainEscape → as.re? = some a →
    (a.mapRanges F.close).Denotes (as.Means F.key (· ≠ '\n'))
  | .last g, a, has, ha => .of_eps fun _ _ _ => g.matches_iff has ha
  | .cons g as, a, has, ha => by
    obtain ⟨a, hre, hrest⟩ := Option.bind_eq_some_iff.mp ha
    obtain ⟨a', hre', rfl⟩ := Option.map_eq_some_iff.mp hrest
    have hg : (a.mapRanges F.close).Denotes (g.Means F.key (· ≠ '\n')) := .of_eps fun _ _ _ => g.matches_iff has.1 hre
    exact hg.alt (as.denotes has.2 hre')

end

end Language

/-! ## Paths -/

mutual

variable {key : Char → Char} {P Q : Char → Prop}

theorem GlobPart.Means.mono (hPQ : ∀ c, P c → Q c) : ∀ {p : GlobPart} {t : Text}, p.Means key P t → p.Means key Q t
  | .literal _, _, h | .escaped _, _, h | .question, _, h | .star, _, h => h
  | .stars, _, h => fun c hc => hPQ c (h c hc)
  | .group as, _, h => GlobAlts.Means.mono hPQ (show as.Means key P _ from h)

theorem Glob.Means.mono (hPQ : ∀ c, P c → Q c) : ∀ {g : Glob} {t : Text}, g.Means key P t → g.Means key Q t
  | .nil, _, h => h
  | .cons p g, _, h => by
    obtain ⟨u, v, rfl, hp, hg⟩ := h
    exact ⟨u, v, rfl, GlobPart.Means.mono hPQ hp, Glob.Means.mono hPQ hg⟩

theorem GlobAlts.Means.mono (hPQ : ∀ c, P c → Q c) : ∀ {as : GlobAlts} {t : Text}, as.Means key P t → as.Means key Q t
  | .last g, _, h => Glob.Means.mono hPQ (g := g) h
  | .cons _ _, _, h => h.imp (Glob.Means.mono hPQ) (GlobAlts.Means.mono hPQ)

end

/-- A glob for paths, with a slash in front or not. -/
structure PathGlob where
  rooted : Bool
  body : Glob

namespace PathGlob

def text (g : PathGlob) : Text := if g.rooted then '/' :: g.body.text else g.body.text

/-- The whole path, or its end from the start of a segment on. -/
def Means (key : Char → Char) (any : Char → Prop) (g : PathGlob) (path : Text) : Prop :=
  if g.rooted then g.body.Means key any path
  else ∃ before rest, path = before ++ rest ∧ (before = [] ∨ before.getLast? = some '/') ∧ g.body.Means key any rest

theorem Means.mono {key : Char → Char} {P Q : Char → Prop} (hPQ : ∀ c, P c → Q c) {g : PathGlob} {path : Text}
    (h : g.Means key P path) : g.Means key Q path := by
  unfold Means at h ⊢
  split_ifs at h ⊢
  · exact Glob.Means.mono hPQ h
  · obtain ⟨before, rest, hpath, hbefore, hbody⟩ := h
    exact ⟨before, rest, hpath, hbefore, Glob.Means.mono hPQ hbody⟩

structure Valid (g : PathGlob) : Prop where
  body : g.body.Valid false false
  unrooted : g.rooted = false → g.body.text.head? ≠ some '/'

/-- What stands before the expression of the body. -/
def anchor (g : PathGlob) : Text := if g.rooted then ['^'] else "(^|/)".toList

def anchorRe (g : PathGlob) : Re := if g.rooted then .start else .alt (.seq .start .eps) (.seq (literal '/') .eps)

variable {g : PathGlob}

theorem globToRegexp_text (hg : g.Valid) (hclear : g.body.Clear false '\x00') (ignoreCase : Bool) :
    globToRegexp g.text true true ignoreCase =
    .ok ((if ignoreCase then "(?i)".toList else []) ++ (g.anchor ++ (g.body.regexp ++ ['$']))) := by
  have hrun : ∀ re, ∃ re' k', g.body.text.foldlM (GlobState.step g.body.text true) { re := re } =
      .ok (mid re' k' 0 (g.body.text.getLastD '\x00')) ∧ re' ++ starText k' = re ++ g.body.regexp ∧ k' ≤ 2 := by
    intro re
    have hvalid : g.body.Valid (0 < 0) false := hg.body
    obtain ⟨re', k', hrun, hre, hk, -⟩ := g.body.run g.body.text hvalid (Nat.zero_le 2) nofun hclear re
    exact ⟨re', k', hrun, by simpa [starText] using hre, hk⟩
  have hanchored : (true && decide (g.text.head? = some '/')) = g.rooted := by
    cases hrooted : g.rooted with
    | true => simp [text, hrooted]
    | false => simpa [text, hrooted] using hg.unrooted hrooted
  have htail : (if g.rooted then g.text.tail else g.text) = g.body.text := by
    cases hrooted : g.rooted <;> simp [text, hrooted]
  obtain ⟨re', k', hfold, hre, hk⟩ := hrun ((if ignoreCase then "(?i)".toList else []) ++ g.anchor)
  rw [globToRegexp]
  simp only [hanchored, Bool.true_and, htail, if_true]
  rw [anchor] at hfold hre ⊢
  rw [hfold]
  simp only [bind, Except.bind, insertStars_mid hk, hre]
  simp [mid, pure, Except.pure]

theorem parsePiece_anchor (g : PathGlob) {n : Nat} (hn : 5 ≤ n) (rest : Text) :
    parsePiece n (g.anchor ++ rest) = some (g.anchorRe, rest) := by
  obtain ⟨n, rfl⟩ := Nat.exists_eq_add_of_le' hn
  rw [anchor, anchorRe]
  cases g.rooted <;> rfl

theorem parse_text (hg : g.Valid) : parse (g.anchor ++ (g.body.regexp ++ ['$'])) =
    (g.body.reThen (.seq .stop .eps)).map (.seq g.anchorRe) := by
  have hstop : ∀ n, 2 ≤ n → parseSeq n ['$'] = some (.seq .stop .eps, []) := by
    intro n hn
    obtain ⟨n, rfl⟩ := Nat.exists_eq_add_of_le' hn
    rfl
  have hpos : 0 < g.anchor.length := by
    rw [anchor]
    split <;> simp
  obtain ⟨n, hn⟩ : ∃ n, 3 * (g.anchor ++ (g.body.regexp ++ ['$'])).length + 3 = n + 3 := ⟨_, rfl⟩
  simp only [length_append, length_cons, length_nil] at hn
  have hseq : parseSeq (n + 2) (g.anchor ++ (g.body.regexp ++ ['$'])) =
      (g.body.reThen (.seq .stop .eps)).map fun a => (.seq g.anchorRe a, []) := by
    rw [parseSeq_plain (by rw [anchor]; split <;> simp) (g.parsePiece_anchor (by omega) _)
      (Glob.head_regexp hg.body (by simp)), g.body.parse hg.body (by omega) (by simp) hstop]
    cases g.body.reThen (.seq .stop .eps) <;> rfl
  rw [parse, length_append, length_append, length_singleton]
  rw [hn, parseAlt, hseq]
  cases g.body.reThen (.seq .stop .eps) <;> rfl

section

variable (F : Folding) (hescapes : g.body.All PlainEscape) {a : Re} (ha : g.body.reThen (.seq .stop .eps) = some a)

include F hescapes ha

/-- Behind the body nothing may follow. -/
theorem matches_body (b : Bool) (cs : Text) :
    (∃ q, Matches (a.mapRanges F.close) ⟨b, cs⟩ q) ↔ g.body.Means F.key (· ≠ '\n') cs := by
  constructor
  · rintro ⟨q, h⟩
    obtain ⟨taken, rest, rfl, hmeans, hstop⟩ := (g.body.matches_iff F hescapes ha).mp h
    cases hstop with
    | seq hstop _ =>
      cases hstop
      simpa using hmeans
  · intro hmeans
    exact ⟨_, (g.body.matches_iff F hescapes ha).mpr ⟨cs, [], by simp, hmeans, .seq (.stop _) (.eps _)⟩⟩

theorem matchString_iff_means (path : Text) :
    ((Re.seq g.anchorRe a).mapRanges F.close).matchString path = true ↔ g.Means F.key (· ≠ '\n') path := by
  have hbody := matches_body F hescapes ha
  have hslash : ∀ d, (⟨false, F.close [('/', '/')]⟩ : CharSet).contains d = true ↔ d = '/' :=
    fun d => (contains_same F '/' d).trans ⟨F.eq_of_lt '/' d (by decide), congrArg F.key⟩
  rw [matchString_iff, Means, anchorRe]
  cases g.rooted with
  | true =>
    constructor
    · rintro ⟨_ | ⟨c, before⟩, rest, rfl, q, h⟩
      · cases h with
        | seq hstart h =>
          cases hstart
          exact (hbody _ _).mp ⟨q, h⟩
      · cases h with
        | seq hstart _ => cases hstart
    · intro hmeans
      obtain ⟨q, h⟩ := (hbody true path).mpr hmeans
      exact ⟨[], path, rfl, q, .seq (.start _) h⟩
  | false =>
    constructor
    · rintro ⟨before, rest, rfl, q, h⟩
      cases h with
      | seq hanchor h =>
        cases hanchor with
        | altLeft hstart =>
          cases hstart with
          | seq hstart heps =>
            cases heps
            cases before with
            | nil =>
              cases hstart
              exact ⟨[], rest, rfl, .inl rfl, (hbody _ _).mp ⟨q, h⟩⟩
            | cons c before => cases hstart
        | altRight hsep =>
          cases hsep with
          | seq hsep heps =>
            cases heps
            cases hsep with
            | set _ _ c rest hc =>
              obtain rfl := (hslash c).mp hc
              exact ⟨before ++ ['/'], rest, by simp, .inr (by simp), (hbody _ _).mp ⟨q, h⟩⟩
    · rintro ⟨before, rest, rfl, rfl | hlast, hmeans⟩
      · obtain ⟨q, h⟩ := (hbody true rest).mpr hmeans
        exact ⟨[], rest, rfl, q, .seq (.altLeft (.seq (.start _) (.eps _))) h⟩
      · obtain ⟨init, rfl⟩ := getLast?_eq_some_iff.mp hlast
        obtain ⟨q, h⟩ := (hbody false rest).mpr hmeans
        refine ⟨init, '/' :: rest, by simp, q, .seq (.altRight (.seq ?_ (.eps _))) h⟩
        exact .set _ _ '/' rest ((hslash '/').mpr rfl)

end

end PathGlob

/-- The engine that knows the notation of `Regexp` and the flag for case. -/
def engine (F : Folding) : Engine where
  compiles text := (compile F text).isSome
  matchString text remote := (compile F text).any (·.matchString remote)

theorem compile_text (F : Folding) (g : PathGlob) (ignoreCase : Bool) (rest : Text) :
    compile F ((if ignoreCase then "(?i)".toList else []) ++ (g.anchor ++ rest)) =
      (parse (g.anchor ++ rest)).map (·.mapRanges (if ignoreCase then F else .exact).close) := by
  cases ignoreCase with
  | true => rfl
  | false =>
    have hid : (fun a : Re => a.mapRanges Folding.exact.close) = id := funext Re.mapRanges_id
    change compile F (g.anchor ++ rest) = (parse (g.anchor ++ rest)).map fun a => a.mapRanges Folding.exact.close
    rw [hid, Option.map_id_fun, id, PathGlob.anchor]
    cases g.rooted <;> rfl

/-- If a glob compiles, and no escaped character means something else in expressions and no group opens directly behind
a brace in another one, then the expression is right about a path exactly if the path is none of the glob's, or is one
of its paths without a line feed in what two stars stand for. -/
theorem globPathToRegexp_means (F : Folding) {g : PathGlob} (hg : g.Valid) (hclear : g.body.Clear false '\x00')
    (hescapes : g.body.All PlainEscape) {ignoreCase : Bool} {re : Text}
    (h : globPathToRegexp (engine F) g.text ignoreCase = .ok re) (path : Text) :
    ((engine F).matchString re path = true ↔ g.Means (if ignoreCase then F.key else id) (fun _ => True) path) ↔
      (g.Means (if ignoreCase then F.key else id) (fun _ => True) path →
        g.Means (if ignoreCase then F.key else id) (· ≠ '\n') path) := by
  have hkey : (if ignoreCase then F else .exact : Folding).key = if ignoreCase then F.key else id := by
    cases ignoreCase <;> rfl
  -- the dot of Go's expressions takes every character but the line feed
  have hmatch : (engine F).matchString re path = true ↔ g.Means (if ignoreCase then F.key else id) (· ≠ '\n') path := by
    rw [globPathToRegexp, PathGlob.globToRegexp_text hg hclear] at h
    have hcompile := compile_text F g ignoreCase (g.body.regexp ++ ['$'])
    rw [PathGlob.parse_text hg] at hcompile
    generalize (if ignoreCase then "(?i)".toList else []) ++ (g.anchor ++ (g.body.regexp ++ ['$'])) = text at h hcompile
    change (if (engine F).compiles text then Except.ok text else Except.error _) = _ at h
    split at h
    · next hcompiles =>
      cases h
      cases hre : g.body.reThen (.seq .stop .eps) with rw [hre] at hcompile
      | none =>
        simp [engine, hcompile] at hcompiles
      | some a =>
        rw [← hkey, ← PathGlob.matchString_iff_means _ hescapes hre]
        simp [engine, hcompile]
    · cases h
  rw [hmatch]
  exact ⟨Iff.mpr, fun hline => ⟨PathGlob.Means.mono fun _ _ => trivial, hline⟩⟩

/-- Either of two alternatives, and then a star. -/
def eitherStar : PathGlob :=
  ⟨true, .cons (.group (.cons (.cons (.literal 'a') .nil) (.last (.cons (.escaped '*') .nil)))) (.cons .star .nil)⟩

theorem globPathToRegexp_means_eitherStar : ∃ re, globPathToRegexp (engine .exact) eitherStar.text false = .ok re ∧
    ((engine .exact).matchString re ['*', 'b'] = true ↔ eitherStar.Means id (fun _ => True) ['*', 'b']) := by
  have hvalid : eitherStar.Valid := by
    refine ⟨?_, nofun⟩
    simp [eitherStar, Glob.Valid, GlobPart.Valid, GlobAlts.Valid, GlobPart.isStar, openBrace, closeBrace]
  have hescapes : eitherStar.body.All PlainEscape := by
    simp [eitherStar, Glob.All, GlobPart.All, GlobAlts.All, PlainEscape]
    decide
  have hclear : eitherStar.body.Clear false '\x00' := by simp [eitherStar, Glob.Clear, GlobPart.Clear, GlobAlts.Clear]
  have hre : globPathToRegexp (engine .exact) eitherStar.text false = .ok "^(a|\\*)[^/]*$".toList := by decide +kernel
  have hline : eitherStar.Means id (· ≠ '\n') ['*', 'b'] := by
    refine ⟨['*'], ['b'], rfl, .inr ⟨['*'], [], rfl, ⟨'*', rfl, rfl⟩, rfl⟩, ['b'], [], rfl, ?_, rfl⟩
    simp [GlobPart.Means]
  exact ⟨_, hre, (globPathToRegexp_means .exact hvalid hclear hescapes hre _).2 fun _ => hline⟩

/-- An escaped brace and behind it a group, in a group. -/
def braceGroup : PathGlob :=
  ⟨true, .cons (.group (.last (.cons (.escaped openBrace) (.cons
    (.group (.cons (.cons (.literal 'a') .nil) (.last (.cons (.literal 'b') .nil)))) .nil)))) .nil⟩

/-- The escaped brace is taken for the start of a raw expression; an escaped letter can stand for a set; and two stars
stop at a line feed. -/
theorem globPathToRegexp_differs :
    (∃ re, globPathToRegexp (engine .exact) braceGroup.text false = .ok re ∧
      (engine .exact).matchString re [openBrace, 'a'] = false ∧
      braceGroup.Means id (fun _ => True) [openBrace, 'a']) ∧
    (∃ re, globPathToRegexp (engine .exact) (PathGlob.mk true (.cons (.escaped 'd') .nil)).text false = .ok re ∧
      (engine .exact).matchString re ['d'] = false ∧
      (PathGlob.mk true (.cons (.escaped 'd') .nil)).Means id (fun _ => True) ['d']) ∧
    (∃ re, globPathToRegexp (engine .exact) (PathGlob.mk true (.cons .stars .nil)).text false = .ok re ∧
      (engine .exact).matchString re ['\n'] = false ∧
      (PathGlob.mk true (.cons .stars .nil)).Means id (fun _ => True) ['\n']) := by
  refine ⟨⟨_, rfl, by decide +kernel, ?_⟩, ⟨_, rfl, by decide +kernel, ?_⟩, _, rfl, by decide +kernel, ?_⟩
  · simp [braceGroup, PathGlob.Means, Glob.Means, GlobPart.Means, GlobAlts.Means]
  · simp [PathGlob.Means, Glob.Means, GlobPart.Means]
  · simp [PathGlob.Means, Glob.Means, GlobPart.Means]

end ZClone.Filter
