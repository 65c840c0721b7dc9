import Mathlib.Data.List.Basic
import Mathlib.Order.Basic

/-!
# Regular expressions with anchors

The part of Perl-style regular expressions made of literals, character sets, groups, alternatives, stars and the anchors
of the text, searched for anywhere in a text, with or without regard to case.

- `Matches` says which stretch of a text an expression matches; `reach` computes it (`mem_reach_iff`).
- `parse` reads the usual notation; anything else is refused. `compile` knows the flag for case too.
- `matchString_iff`: a search succeeds exactly if the expression matches a stretch of the text.
-/

namespace ZClone.Regexp

open List

/-- A set of characters given by ranges, or the complement of one. -/
structure CharSet where
  negated : Bool
  ranges : List (Char × Char)
  deriving DecidableEq

def CharSet.contains (s : CharSet) (c : Char) : Bool := (s.ranges.any fun r => r.1 ≤ c && c ≤ r.2) != s.negated

inductive Re where
  | eps
  | set (s : CharSet)
  /-- The anchor `^`. -/
  | start
  /-- The anchor `$`. -/
  | stop
  | seq (a b : Re)
  | alt (a b : Re)
  | star (a : Re)
  deriving DecidableEq

/-- A position in a text: whether it is the start, and the text from there on. -/
structure Pos where
  atStart : Bool
  rest : List Char
  deriving DecidableEq

inductive Matches : Re → Pos → Pos → Prop
  | eps (p : Pos) : Matches .eps p p
  | set (s : CharSet) (b : Bool) (c : Char) (cs : List Char) : s.contains c = true →
      Matches (.set s) ⟨b, c :: cs⟩ ⟨false, cs⟩
  | start (cs : List Char) : Matches .start ⟨true, cs⟩ ⟨true, cs⟩
  | stop (b : Bool) : Matches .stop ⟨b, []⟩ ⟨b, []⟩
  | seq {a b : Re} {p q r : Pos} : Matches a p q → Matches b q r → Matches (.seq a b) p r
  | altLeft {a b : Re} {p q : Pos} : Matches a p q → Matches (.alt a b) p q
  | altRight {a b : Re} {p q : Pos} : Matches b p q → Matches (.alt a b) p q
  | starNil (a : Re) (p : Pos) : Matches (.star a) p p
  | starCons {a : Re} {p q r : Pos} : Matches a p q → Matches (.star a) q r → Matches (.star a) p r

/-- Repeat `step`, each time with less text left. -/
def starReach (step : Pos → List Pos) : Nat → Pos → List Pos
  | 0, p => [p]
  | n + 1, p => p :: ((step p).filter fun q => q.rest.length < p.rest.length).flatMap (starReach step n)

/-- The positions an expression can reach by a match. -/
def reach : Re → Pos → List Pos
  | .eps, p => [p]
  | .set s, p =>
    match p.rest with
    | [] => []
    | c :: cs => if s.contains c then [⟨false, cs⟩] else []
  | .start, p => if p.atStart then [p] else []
  | .stop, p => if p.rest.isEmpty then [p] else []
  | .seq a b, p => (reach a p).flatMap (reach b)
  | .alt a b, p => reach a p ++ reach b p
  | .star a, p => starReach (reach a) p.rest.length p

/-- The positions of a text, from the start on. -/
def positionsFrom (b : Bool) : List Char → List Pos
  | [] => [⟨b, []⟩]
  | c :: cs => ⟨b, c :: cs⟩ :: positionsFrom false cs

/-- Search for the expression anywhere in the text. -/
def Re.matchString (re : Re) (text : List Char) : Bool := (positionsFrom true text).any fun p => !(reach re p).isEmpty

/-! ## The notation -/

/-- The characters that mean something in the notation. -/
def isMeta (c : Char) : Bool := c ∈ ['\\', '.', '+', '*', '?', '(', ')', '|', '[', ']', '\x7b', '\x7d', '^', '$']

def literal (c : Char) : Re := .set ⟨false, [(c, c)]⟩

/-- An ASCII letter or digit. -/
def isAlnum (c : Char) : Bool := ('0' ≤ c && c ≤ '9') || ('A' ≤ c && c ≤ 'Z') || ('a' ≤ c && c ≤ 'z')

/-- A character behind a backslash: a set, a control character, an anchor, or, if it is no letter or digit, itself.
Boundaries of words, Unicode classes, code points and quoting are left out. -/
def escape (c : Char) : Option Re :=
  match c with
  | 'd' => some (.set ⟨false, [('0', '9')]⟩)
  | 'D' => some (.set ⟨true, [('0', '9')]⟩)
  | 's' => some (.set ⟨false, [('\t', '\n'), ('\x0c', '\r'), (' ', ' ')]⟩)
  | 'S' => some (.set ⟨true, [('\t', '\n'), ('\x0c', '\r'), (' ', ' ')]⟩)
  | 'w' => some (.set ⟨false, [('0', '9'), ('A', 'Z'), ('_', '_'), ('a', 'z')]⟩)
  | 'W' => some (.set ⟨true, [('0', '9'), ('A', 'Z'), ('_', '_'), ('a', 'z')]⟩)
  | 'a' => some (literal '\x07')
  | 'f' => some (literal '\x0c')
  | 'n' => some (literal '\n')
  | 'r' => some (literal '\r')
  | 't' => some (literal '\t')
  | 'v' => some (literal '\x0b')
  | 'A' => some .start
  | 'z' => some .stop
  | c => if c.toNat < 0x80 && !isAlnum c then some (literal c) else none

/-- The items of a set up to its closing bracket. -/
def parseRanges : List Char → Option (List (Char × Char) × List Char)
  | [] => none
  | ']' :: rest => some ([], rest)
  | c :: '-' :: d :: rest =>
    if isMeta c || d = ']' || isMeta d then none
    else (parseRanges rest).map fun (ranges, rest) => ((c, d) :: ranges, rest)
  | c :: rest =>
    if isMeta c then none else (parseRanges rest).map fun (ranges, rest) => ((c, c) :: ranges, rest)

mutual

/-- Alternatives. -/
def parseAlt : Nat → List Char → Option (Re × List Char)
  | 0, _ => none
  | fuel + 1, text =>
    match parseSeq fuel text with
    | some (a, '|' :: rest) => (parseAlt fuel rest).map fun (b, rest) => (.alt a b, rest)
    | result => result

/-- A sequence of pieces, each perhaps starred. -/
def parseSeq : Nat → List Char → Option (Re × List Char)
  | 0, _ => none
  | fuel + 1, text =>
    match text with
    | [] => some (.eps, [])
    | ')' :: _ => some (.eps, text)
    | '|' :: _ => some (.eps, text)
    | _ =>
      match parsePiece fuel text with
      | none => none
      | some (a, '*' :: rest) => (parseSeq fuel rest).map fun (b, rest) => (.seq (.star a) b, rest)
      | some (a, rest) => (parseSeq fuel rest).map fun (b, rest) => (.seq a b, rest)

/-- A character, an escaped one, a set, a group or an anchor. -/
def parsePiece : Nat → List Char → Option (Re × List Char)
  | 0, _ => none
  | fuel + 1, text =>
    match text with
    | '(' :: rest =>
      match parseAlt fuel rest with
      | some (a, ')' :: rest) => some (a, rest)
      | _ => none
    | '[' :: '^' :: rest => (parseRanges rest).map fun (ranges, rest) => (.set ⟨true, ranges⟩, rest)
    | '[' :: rest => (parseRanges rest).map fun (ranges, rest) => (.set ⟨false, ranges⟩, rest)
    | '^' :: rest => some (.start, rest)
    | '$' :: rest => some (.stop, rest)
    | '.' :: rest => some (.set ⟨true, [('\n', '\n')]⟩, rest)
    | '\\' :: c :: rest => (escape c).map fun a => (a, rest)
    | c :: rest => if isMeta c then none else some (literal c, rest)
    | [] => none

end

/-- The whole text as an expression. -/
def parse (text : List Char) : Option Re :=
  match parseAlt (3 * text.length + 3) text with
  | some (re, []) => some re
  | _ => none

variable {a : Re}

section Parse

variable {n : Nat} {text rest : List Char}

theorem parsePiece_literal {c : Char} (h : isMeta c = false) :
    parsePiece (n + 1) (c :: rest) = some (literal c, rest) := by
  rw [parsePiece]
  · simp [h]
  all_goals
    intros
    subst_vars
    simp [isMeta] at h

theorem parseSeq_of_piece (h : text.head? ∉ [none, some ')', some '|']) :
    parseSeq (n + 1) text = match parsePiece n text with
    | none => none
    | some (a, '*' :: rest) => (parseSeq n rest).map fun (b, rest) => (.seq (.star a) b, rest)
    | some (a, rest) => (parseSeq n rest).map fun (b, rest) => (.seq a b, rest) := by
  rw [parseSeq]
  all_goals
    intros
    subst_vars
    simp at h

theorem parseSeq_plain (h : text.head? ∉ [none, some ')', some '|']) (hpiece : parsePiece n text = some (a, rest))
    (hrest : rest.head? ≠ some '*') :
    parseSeq (n + 1) text = (parseSeq n rest).map fun (b, rest) => (.seq a b, rest) := by
  rw [parseSeq_of_piece h, hpiece]
  cases rest with
  | nil => rfl
  | cons c rest =>
    split <;> simp_all

end Parse

/-! ## Case -/

/-- The ranges of every set, changed. -/
def Re.mapRanges (f : List (Char × Char) → List (Char × Char)) : Re → Re
  | .set s => .set ⟨s.negated, f s.ranges⟩
  | .seq a b => .seq (a.mapRanges f) (b.mapRanges f)
  | .alt a b => .alt (a.mapRanges f) (b.mapRanges f)
  | .star a => .star (a.mapRanges f)
  | a => a

/-- The characters that are the same but for case. -/
structure Folding where
  /-- One of them for each. -/
  key : Char → Char
  /-- All that are the same as one in the ranges. -/
  close : List (Char × Char) → List (Char × Char)
  contains_close : ∀ ranges c, (⟨false, close ranges⟩ : CharSet).contains c = true ↔
    ∃ d, key d = key c ∧ (⟨false, ranges⟩ : CharSet).contains d = true
  /-- Those before the letters have no case. -/
  eq_of_lt : ∀ c d, c.toNat < 0x41 → key d = key c → d = c

/-- Case matters. -/
def Folding.exact : Folding := ⟨id, id, fun _ _ => by simp, fun _ _ _ h => h⟩

/-- The whole text as an expression, with the flag for case at most at the start. -/
def compile (F : Folding) (text : List Char) : Option Re :=
  match text with
  | '(' :: '?' :: 'i' :: ')' :: rest => (parse rest).map (·.mapRanges F.close)
  | text => parse text

theorem Re.mapRanges_id (a : Re) : a.mapRanges id = a := by
  induction a with
  | eps | set | start | stop => rfl
  | seq a b iha ihb | alt a b iha ihb => rw [mapRanges, iha, ihb]
  | star a iha => rw [mapRanges, iha]

/-! ## Computing matches -/

/-- A match stays where it is or uses up text. -/
theorem Matches.progress {re : Re} {p q : Pos} (h : Matches re p q) : q = p ∨ q.rest.length < p.rest.length := by
  induction h with
  | eps | start | stop | starNil => exact .inl rfl
  | set => exact .inr (by simp)
  | altLeft _ ih | altRight _ ih => exact ih
  | seq _ _ ih₁ ih₂ | starCons _ _ ih₁ ih₂ =>
    rcases ih₁ with rfl | hlt
    · exact ih₂
    · rcases ih₂ with rfl | hlt'
      · exact .inr hlt
      · exact .inr (Nat.lt_trans hlt' hlt)

variable {step : Pos → List Pos} {L : List Char → Prop}

theorem starReach_mono : ∀ {n n' : Nat} {p q : Pos}, n ≤ n' → q ∈ starReach step n p → q ∈ starReach step n' p
  | 0, 0, _, _, _, h => h
  | 0, n' + 1, p, q, _, h => by
    obtain rfl : q = p := by simpa [starReach] using h
    simp [starReach]
  | n + 1, n' + 1, p, q, hle, h => by
    rcases mem_cons.mp h with rfl | h
    · exact mem_cons_self
    · obtain ⟨r, hr, hq⟩ := mem_flatMap.mp h
      exact mem_cons_of_mem _ (mem_flatMap.mpr ⟨r, hr, starReach_mono (Nat.le_of_succ_le_succ hle) hq⟩)

theorem matches_of_mem_starReach (hstep : ∀ p q, q ∈ step p → Matches a p q) :
    ∀ {n : Nat} {p q : Pos}, q ∈ starReach step n p → Matches (.star a) p q
  | 0, p, q, h => by
    obtain rfl : q = p := by simpa [starReach] using h
    exact .starNil a q
  | n + 1, p, q, h => by
    rcases mem_cons.mp h with rfl | h
    · exact .starNil a q
    · obtain ⟨r, hr, hq⟩ := mem_flatMap.mp h
      exact .starCons (hstep p r (mem_of_mem_filter hr)) (matches_of_mem_starReach hstep hq)

/-- A repetition that uses up no text can be left out. -/
theorem mem_starReach_of_matches (hstep : ∀ p q, Matches a p q → q ∈ step p)
    {re : Re} {p q : Pos} (h : Matches re p q) (hre : re = .star a) : q ∈ starReach step p.rest.length p := by
  induction h with
  | starNil a' p => cases p.rest.length <;> simp [starReach]
  | @starCons a' p q r hfirst hrest _ ih =>
    cases hre
    have hr := ih rfl
    rcases hfirst.progress with rfl | hlt
    · exact hr
    · obtain ⟨n, hn⟩ := Nat.exists_eq_add_of_lt hlt
      have hlen : p.rest.length = (q.rest.length + n) + 1 := hn
      rw [hlen, starReach]
      refine mem_cons_of_mem _ (mem_flatMap.mpr ⟨q, ?_, starReach_mono (Nat.le_add_right _ _) hr⟩)
      exact mem_filter.mpr ⟨hstep p q hfirst, by simpa using hlt⟩
  | _ => cases hre

/-- The positions computed are those a match ends at. -/
theorem mem_reach_iff (re : Re) : ∀ p q, q ∈ reach re p ↔ Matches re p q := by
  induction re with
  | eps =>
    intro p q
    rw [reach, mem_singleton]
    exact ⟨fun h => h ▸ .eps p, fun h => by cases h; rfl⟩
  | set s =>
    rintro ⟨b, cs⟩ q
    cases cs with
    | nil => exact ⟨fun h => by simp [reach] at h, fun h => by cases h⟩
    | cons c cs =>
      constructor
      · intro h
        by_cases hc : s.contains c = true
        · obtain rfl : q = ⟨false, cs⟩ := by simpa [reach, hc] using h
          exact .set s b c cs hc
        · simp [reach, hc] at h
      · intro h
        cases h with
        | set _ _ _ _ hc => simp [reach, hc]
  | start =>
    rintro ⟨_ | _, cs⟩ q
    · exact ⟨fun h => by simp [reach] at h, fun h => by cases h⟩
    · constructor
      · intro h
        obtain rfl : q = ⟨true, cs⟩ := by simpa [reach] using h
        exact .start cs
      · intro h
        cases h
        simp [reach]
  | stop =>
    rintro ⟨b, _ | ⟨c, cs⟩⟩ q
    · constructor
      · intro h
        obtain rfl : q = ⟨b, []⟩ := by simpa [reach] using h
        exact .stop b
      · intro h
        cases h
        simp [reach]
    · exact ⟨fun h => by simp [reach] at h, fun h => by cases h⟩
  | seq a b iha ihb =>
    intro p r
    rw [reach, mem_flatMap]
    constructor
    · rintro ⟨q, hq, hr⟩
      exact .seq ((iha p q).mp hq) ((ihb q r).mp hr)
    · intro h
      cases h with
      | @seq _ _ _ q _ hq hr => exact ⟨q, (iha p q).mpr hq, (ihb q r).mpr hr⟩
  | alt a b iha ihb =>
    intro p q
    rw [reach, mem_append, iha, ihb]
    constructor
    · rintro (h | h)
      · exact .altLeft h
      · exact .altRight h
    · intro h
      cases h with
      | altLeft h => exact .inl h
      | altRight h => exact .inr h
  | star a iha =>
    intro p q
    constructor
    · exact matches_of_mem_starReach fun p q => (iha p q).mp
    · exact fun h => mem_starReach_of_matches (fun p q => (iha p q).mpr) h rfl

theorem mem_positionsFrom {b : Bool} {p : Pos} : ∀ {text : List Char}, p ∈ positionsFrom b text ↔
    ∃ before, text = before ++ p.rest ∧ p.atStart = (b && before.isEmpty)
  | [] => by
    obtain ⟨a, rest⟩ := p
    simp only [positionsFrom, mem_singleton, Pos.mk.injEq]
    constructor
    · rintro ⟨rfl, rfl⟩
      exact ⟨[], rfl, by simp⟩
    · rintro ⟨before, heq, hstart⟩
      obtain ⟨rfl, rfl⟩ := append_eq_nil_iff.mp heq.symm
      exact ⟨by simpa using hstart, rfl⟩
  | c :: cs => by
    rw [positionsFrom, mem_cons, mem_positionsFrom]
    constructor
    · rintro (rfl | ⟨before, rfl, hstart⟩)
      · exact ⟨[], rfl, by simp⟩
      · exact ⟨c :: before, rfl, by simpa using hstart⟩
    · rintro ⟨_ | ⟨c', before⟩, heq, hstart⟩
      · left
        obtain ⟨a, rest⟩ := p
        subst heq
        simpa using hstart
      · right
        obtain ⟨rfl, rfl⟩ : c = c' ∧ cs = before ++ p.rest := by simpa using heq
        exact ⟨before, rfl, by simpa using hstart⟩

theorem matchString_iff {re : Re} {text : List Char} : re.matchString text = true ↔
    ∃ before rest, text = before ++ rest ∧ ∃ q, Matches re ⟨before.isEmpty, rest⟩ q := by
  rw [Re.matchString, any_eq_true]
  constructor
  · rintro ⟨p, hp, hne⟩
    obtain ⟨before, heq, hstart⟩ := mem_positionsFrom.mp hp
    obtain ⟨q, hq⟩ := exists_mem_of_ne_nil (reach re p) (by simpa using hne)
    refine ⟨before, p.rest, heq, q, ?_⟩
    have hmatch := (mem_reach_iff re p q).mp hq
    obtain ⟨a, rest⟩ := p
    obtain rfl : a = before.isEmpty := by simpa using hstart
    exact hmatch
  · rintro ⟨before, rest, heq, q, hq⟩
    refine ⟨⟨before.isEmpty, rest⟩, mem_positionsFrom.mpr ⟨before, heq, by simp⟩, ?_⟩
    have hmem := (mem_reach_iff re _ q).mpr hq
    simpa using ne_nil_of_mem hmem

/-- A starred set takes any stretch of its characters. -/
theorem matches_star_set {s : CharSet} : ∀ {b : Bool} {cs rest : List Char}, (∀ c ∈ cs, s.contains c = true) →
    Matches (.star (.set s)) ⟨b, cs ++ rest⟩ ⟨b && cs.isEmpty, rest⟩
  | b, [], rest, _ => by simpa using Matches.starNil (.set s) ⟨b, rest⟩
  | b, c :: cs, rest, h => by
    have hrest : Matches (.star (.set s)) ⟨false, cs ++ rest⟩ ⟨false && cs.isEmpty, rest⟩ :=
      matches_star_set fun c' hc' => h c' (mem_cons_of_mem _ hc')
    have hfirst := Matches.set s b c (cs ++ rest) (h c mem_cons_self)
    simpa using Matches.starCons hfirst (by simpa using hrest)

/-! ## Expressions without anchors -/

theorem CharSet.contains_iff {ranges : List (Char × Char)} {c : Char} :
    (⟨false, ranges⟩ : CharSet).contains c = true ↔ ∃ r ∈ ranges, r.1 ≤ c ∧ c ≤ r.2 := by
  rw [CharSet.contains, Bool.bne_false, any_eq_true]
  simp only [Bool.and_eq_true, decide_eq_true_eq]

/-- No anchors, and only characters that satisfy `S`. -/
def Re.Plain (S : Char → Prop) : Re → Prop
  | .eps => True
  | .set s => ∀ c, s.contains c = true → S c
  | .start => False
  | .stop => False
  | .seq a b => a.Plain S ∧ b.Plain S
  | .alt a b => a.Plain S ∧ b.Plain S
  | .star a => a.Plain S

section

variable {S : Char → Prop} {re : Re} {p q : Pos} (h : Matches re p q) (hre : re.Plain S)

include h hre

theorem Matches.exists_taken : ∃ taken, p.rest = taken ++ q.rest ∧ ∀ c ∈ taken, S c := by
  induction h with
  | eps | starNil => exact ⟨[], rfl, nofun⟩
  | set s b c cs hc => exact ⟨[c], rfl, fun d hd => mem_singleton.mp hd ▸ hre c hc⟩
  | start | stop => exact hre.elim
  | altLeft _ ih => exact ih hre.1
  | altRight _ ih => exact ih hre.2
  | seq _ _ ih₁ ih₂ =>
    obtain ⟨taken₁, heq₁, h₁⟩ := ih₁ hre.1
    obtain ⟨taken₂, heq₂, h₂⟩ := ih₂ hre.2
    exact ⟨taken₁ ++ taken₂, by rw [heq₁, heq₂, append_assoc],
      fun c hc => (mem_append.mp hc).elim (h₁ c) (h₂ c)⟩
  | starCons _ _ ih₁ ih₂ =>
    obtain ⟨taken₁, heq₁, h₁⟩ := ih₁ hre
    obtain ⟨taken₂, heq₂, h₂⟩ := ih₂ hre
    exact ⟨taken₁ ++ taken₂, by rw [heq₁, heq₂, append_assoc],
      fun c hc => (mem_append.mp hc).elim (h₁ c) (h₂ c)⟩

/-- Without anchors, what comes behind the match does not matter. -/
theorem Matches.extend (more : List Char) : Matches re ⟨p.atStart, p.rest ++ more⟩ ⟨q.atStart, q.rest ++ more⟩ := by
  induction h with
  | eps => exact .eps _
  | set s b c cs hc => exact .set s b c (cs ++ more) hc
  | start | stop => exact hre.elim
  | seq _ _ ih₁ ih₂ => exact .seq (ih₁ hre.1) (ih₂ hre.2)
  | altLeft _ ih => exact .altLeft (ih hre.1)
  | altRight _ ih => exact .altRight (ih hre.2)
  | starNil => exact .starNil _ _
  | starCons _ _ ih₁ ih₂ => exact .starCons (ih₁ hre) (ih₂ hre)

end

/-- Wherever it stands, the expression takes the texts in `L`. -/
def Re.Denotes (a : Re) (L : List Char → Prop) : Prop :=
  ∀ b cs q, Matches a ⟨b, cs⟩ q ↔ ∃ taken rest, cs = taken ++ rest ∧ q = ⟨b && taken.isEmpty, rest⟩ ∧ L taken

theorem denotes_set (s : CharSet) : (Re.set s).Denotes fun taken => ∃ c, taken = [c] ∧ s.contains c = true := by
  intro b cs q
  constructor
  · intro h
    cases h with
    | set _ _ c cs hc => exact ⟨[c], cs, rfl, by simp, c, rfl, hc⟩
  · rintro ⟨taken, rest, rfl, rfl, c, rfl, hc⟩
    simpa using Matches.set s b c rest hc

theorem denotes_star_set (s : CharSet) : (Re.star (.set s)).Denotes fun taken => ∀ c ∈ taken, s.contains c = true := by
  intro b cs q
  constructor
  · intro h
    generalize hre : Re.star (.set s) = re at h
    generalize hp : (⟨b, cs⟩ : Pos) = p at h
    induction h generalizing b cs with
    | starNil a p =>
      subst hp
      exact ⟨[], cs, rfl, by simp, nofun⟩
    | @starCons a p q r hfirst _ _ ih =>
      cases hre
      subst hp
      obtain ⟨taken, rest, rfl, rfl, c, rfl, hc⟩ := (denotes_set s b cs q).mp hfirst
      obtain ⟨more, rest', rfl, rfl, hmore⟩ := ih _ _ rfl rfl
      exact ⟨c :: more, rest', rfl, by simp, forall_mem_cons.mpr ⟨hc, hmore⟩⟩
    | _ => cases hre
  · rintro ⟨taken, rest, rfl, rfl, htaken⟩
    exact matches_star_set htaken

theorem Re.Denotes.alt {b : Re} {M : List Char → Prop} (ha : a.Denotes L) (hb : b.Denotes M) :
    (a.alt b).Denotes fun taken => L taken ∨ M taken := by
  intro start cs q
  constructor
  · intro h
    cases h with
    | altLeft h =>
      obtain ⟨taken, rest, hcs, hq, hL⟩ := (ha start cs q).mp h
      exact ⟨taken, rest, hcs, hq, .inl hL⟩
    | altRight h =>
      obtain ⟨taken, rest, hcs, hq, hM⟩ := (hb start cs q).mp h
      exact ⟨taken, rest, hcs, hq, .inr hM⟩
  · rintro ⟨taken, rest, hcs, hq, hL | hM⟩
    · exact .altLeft ((ha start cs q).mpr ⟨taken, rest, hcs, hq, hL⟩)
    · exact .altRight ((hb start cs q).mpr ⟨taken, rest, hcs, hq, hM⟩)

/-- A sequence takes a text of its first part, and its second part goes on behind it. -/
theorem Re.Denotes.matches_seq {b : Re} (ha : a.Denotes L) {start : Bool} {cs : List Char} {q : Pos} :
    Matches (a.seq b) ⟨start, cs⟩ q ↔
      ∃ taken rest, cs = taken ++ rest ∧ L taken ∧ Matches b ⟨start && taken.isEmpty, rest⟩ q := by
  constructor
  · intro h
    cases h with
    | seq h h' =>
      obtain ⟨taken, rest, hcs, rfl, hL⟩ := (ha start cs _).mp h
      exact ⟨taken, rest, hcs, hL, h'⟩
  · rintro ⟨taken, rest, hcs, hL, h'⟩
    exact .seq ((ha start cs _).mpr ⟨taken, rest, hcs, rfl, hL⟩) h'

theorem Re.Denotes.of_eps (h : ∀ b cs q, Matches a ⟨b, cs⟩ q ↔
    ∃ taken rest, cs = taken ++ rest ∧ L taken ∧ Matches .eps ⟨b && taken.isEmpty, rest⟩ q) : a.Denotes L := by
  intro b cs q
  rw [h]
  constructor
  · rintro ⟨taken, rest, rfl, hL, heps⟩
    cases heps
    exact ⟨taken, rest, rfl, rfl, hL⟩
  · rintro ⟨taken, rest, rfl, rfl, hL⟩
    exact ⟨taken, rest, rfl, hL, .eps _⟩

end ZClone.Regexp
