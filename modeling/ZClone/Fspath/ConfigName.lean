import ZClone.Fspath.Basic

/-!
# Names of remotes (`fs/fspath/path.go`)

- `checkConfigName` and `makeConfigName` are the functions of the package.
- `accepts_of_legal`, `not_loneDash_of_accepts`: which texts `configNameMatcher` matches. A word and a single dash is
  not among them.
- `endsInDash_replaceIllegal`: the replacement keeps a dash that is the only gap, and makes none.
- `makeConfigName_accepted_iff`: so a name that is made is accepted unless the given name, behind the gaps at its start,
  has a dash at its end as its only gap.
-/

namespace ZClone.Fspath

open Utf8 Regexp List

variable (env : Env) {c d : Char} {s : CharSet}

def wordSet : CharSet := ⟨false, wordRanges env⟩

def configNameMatcher : Re := .seq .start (.seq (configNameRe env) .stop)

def checkConfigName (configName : Text) : Except Error Unit :=
  if (configNameMatcher env).matchString ((symbols configName).map Symbol.rune) then .ok ()
    else .error .invalidCharacters

/-- The characters in and between words. A stray byte is read as the replacement character, which is no letter and no
number. -/
def isWord : Symbol → Bool
  | .char c => (wordSet env).contains c
  | .stray _ => false

def isGap (x : Symbol) : Bool := x = .char ' ' || x = .char '-'

def isIllegal (x : Symbol) : Bool := !isWord env x && !isGap x

/-- The length of the match of `illegalPartOfConfigNameMatcher` at a position, zero if there is none. -/
def illegalPart (atStart : Bool) (xs : List Symbol) : Nat :=
  if atStart && (xs.takeWhile isGap).length ≠ 0 then (xs.takeWhile isGap).length
  else if (xs.takeWhile (isIllegal env)).length ≠ 0 then (xs.takeWhile (isIllegal env)).length
  else if xs.all (· = .char ' ') then xs.length
  else 0

/-- `ReplaceAllString` of the illegal parts by an underscore. -/
def replaceIllegal : Nat → Bool → List Symbol → List Symbol
  | 0, _, _ => []
  | _ + 1, _, [] => []
  | fuel + 1, atStart, x :: xs =>
    match illegalPart env atStart (x :: xs) with
    | 0 => x :: replaceIllegal fuel false xs
    | n + 1 => .char '_' :: replaceIllegal fuel false (xs.drop n)

def makeConfigName (name : Text) : Text :=
  if name = [] then text ['_']
  else if (configNameMatcher env).matchString ((symbols name).map Symbol.rune) then name
  else bytes (replaceIllegal env (symbols name).length true (symbols name))

/-! ## What the matcher accepts -/

/-- Characters that are no gaps, and a dash. -/
def EndsInDash (xs : List Symbol) : Prop := ∃ body, (∀ x ∈ body, isGap x = false) ∧ xs = body ++ [.char '-']

/-- Behind the spaces and dashes at its beginning, the only gap of the name is a dash at its end. -/
def LoneDash (xs : List Symbol) : Prop := EndsInDash (xs.dropWhile isGap)

variable {env}

/-- Among the ASCII characters the words do not depend on the tables. -/
theorem contains_wordSet (hd : d.toNat < 0x80) : (wordSet env).contains d =
    (⟨false, [('0', '9'), ('A', 'Z'), ('_', '_'), ('a', 'z'), ('.', '.'), ('+', '+'), ('@', '@')]⟩ : CharSet).contains
      d := by
  have hunicode : (env.unicode.any fun r => r.1 ≤ d && d ≤ r.2) = false := by
    rw [any_eq_false]
    intro r hr hd'
    have hlow : r.1.toNat ≤ d.toNat := of_decide_eq_true (Bool.and_eq_true _ _ ▸ hd' : _ ∧ _).1
    have hge := env.unicode_ge r hr
    omega
  simp only [wordSet, CharSet.contains, wordRanges, any_append, hunicode, Bool.or_false]
  rw [← any_append]
  rfl

theorem matches_plus {b : Bool} {cs rest : List Char} (hne : cs ≠ []) (h : ∀ c ∈ cs, s.contains c = true) :
    Matches (plus s) ⟨b, cs ++ rest⟩ ⟨false, rest⟩ := by
  obtain ⟨c, cs, rfl⟩ := exists_cons_of_ne_nil hne
  exact .seq (.set s b c (cs ++ rest) (h c mem_cons_self)) (matches_star_set fun d hd => h d (mem_cons_of_mem c hd))

theorem exists_of_matches_plus {p q : Pos} (h : Matches (plus s) p q) :
    ∃ c cs, s.contains c = true ∧ p.rest = c :: cs ++ q.rest := by
  cases h with
  | seq hfirst hmore =>
    cases hfirst with
    | set _ b c cs hc =>
      obtain ⟨taken, htaken, -⟩ := hmore.exists_taken (S := fun _ => True) fun _ _ => trivial
      exact ⟨c, taken, hc, congrArg (c :: ·) htaken⟩

/-- A gap is one or more spaces and dashes, and what follows it may have dashes too. -/
def gapSet : CharSet := ⟨false, [(' ', ' '), ('-', '-')]⟩

def wordDashSet (env : Env) : CharSet := ⟨false, wordRanges env ++ [('-', '-')]⟩

theorem le_le_iff : d ≤ c ∧ c ≤ d ↔ c = d :=
  ⟨fun h => Char.le_antisymm h.2 h.1, fun h => h ▸ ⟨Char.le_refl _, Char.le_refl _⟩⟩

theorem contains_gapSet : gapSet.contains c = true ↔ c = ' ' ∨ c = '-' := by
  simp [gapSet, CharSet.contains, le_le_iff]

theorem contains_wordDashSet : (wordDashSet env).contains c = true ↔ (wordSet env).contains c = true ∨ c = '-' := by
  simp [wordDashSet, wordSet, CharSet.contains, le_le_iff]

theorem isGap_eq (x : Symbol) : isGap x = gapSet.contains x.rune := by
  cases x with
  | stray b => rfl
  | char c =>
    have hiff : isGap (.char c) = true ↔ gapSet.contains c = true := by simp [isGap, contains_gapSet]
    exact Bool.eq_iff_iff.mpr hiff

variable {xs out : List Symbol} {atStart : Bool} {x : Symbol} {fuel n : Nat}

theorem endsInDash_iff :
    EndsInDash xs ↔ ∃ body, (∀ c ∈ body, gapSet.contains c = false) ∧ xs.map Symbol.rune = body ++ ['-'] := by
  constructor
  · rintro ⟨body, hbody, rfl⟩
    refine ⟨body.map Symbol.rune, fun c hc => ?_, by simp [Symbol.rune]⟩
    obtain ⟨x, hx, rfl⟩ := mem_map.mp hc
    exact (isGap_eq x).symm.trans (hbody x hx)
  · rintro ⟨_, hbody, heq⟩
    obtain ⟨body, last, rfl, rfl, hlast⟩ := map_eq_append_iff.mp heq
    obtain ⟨x, rfl, hx⟩ := map_eq_singleton_iff.mp hlast
    obtain rfl := eq_char_of_rune (by decide) hx
    exact ⟨body, fun x hx => (isGap_eq x).trans (hbody _ (mem_map_of_mem hx)), rfl⟩

/-- The characters of names. -/
def IsLegal (env : Env) (c : Char) : Prop := (wordSet env).contains c = true ∨ c = ' ' ∨ c = '-'

theorem exists_run {α : Type} (p : α → Bool) (xs : List α) :
    ∃ run rest, xs = run ++ rest ∧ (∀ x ∈ run, p x = true) ∧ ∀ x ∈ rest.head?, p x = false := by
  refine ⟨xs.takeWhile p, xs.dropWhile p, takeWhile_append_dropWhile.symm, fun x hx => mem_takeWhile_imp hx,
    fun x hx => ?_⟩
  have hhead := head?_dropWhile_not p xs
  rw [Option.mem_def.mp hx] at hhead
  simpa using hhead

/-- Behind the first word: each gap is a space or a dash and the spaces behind it, and takes all up to the next space
with it. -/
theorem matches_gaps {t : List Char} (hlegal : ∀ c ∈ t, IsLegal env c) (hhead : ∀ c ∈ t.head?, c = ' ' ∨ c = '-')
    (hlast : t.getLast? ≠ some ' ') (hdash : t ≠ ['-']) :
    ∃ b, Matches (.star (.seq (plus gapSet) (plus (wordDashSet env)))) ⟨false, t⟩ ⟨b, []⟩ := by
  induction hlen : t.length using Nat.strong_induction_on generalizing t with
  | _ n ih =>
    cases t with
    | nil => exact ⟨_, .starNil _ _⟩
    | cons c u =>
      obtain ⟨spaces, v, rfl, hspaces, hv⟩ := exists_run (· = ' ') u
      obtain ⟨body, rest, rfl, hbody, hrest⟩ := exists_run (· ≠ ' ') v
      simp only [decide_eq_true_eq, decide_eq_false_iff_not, not_not] at hspaces hv hbody hrest
      have hgap : ∀ d ∈ c :: spaces, gapSet.contains d = true := by
        intro d hd
        rcases mem_cons.mp hd with rfl | hd
        · exact contains_gapSet.mpr (hhead _ rfl)
        · exact contains_gapSet.mpr (.inl (hspaces d hd))
      have hne : body ≠ [] := by
        rintro rfl
        cases rest with
        | cons d rest => exact hv d rfl (hrest d rfl)
        | nil =>
          rcases spaces.eq_nil_or_concat with rfl | ⟨init, d, rfl⟩
          · rcases hhead c rfl with rfl | rfl
            · exact hlast rfl
            · exact hdash rfl
          · obtain rfl := hspaces d (by simp)
            exact hlast (by simp [getLast?_cons])
      have hword : ∀ d ∈ body, (wordDashSet env).contains d = true := by
        intro d hd
        have hlegal' := hlegal d (by simp [hd])
        exact contains_wordDashSet.mpr (hlegal'.imp_right fun h => h.resolve_left (hbody d hd))
      obtain ⟨b, hmore⟩ :=
        ih rest.length (by simp at hlen; omega) (fun d hd => hlegal d (by simp [hd])) (fun d hd => .inl (hrest d hd))
        (fun h => hlast (by simp [getLast?_cons, getLast?_append, h]))
          (by rintro rfl; exact absurd (hrest '-' rfl) (by decide)) rfl
      have hgroup : Matches (plus gapSet) ⟨false, c :: spaces ++ (body ++ rest)⟩ ⟨false, body ++ rest⟩ :=
        matches_plus (cons_ne_nil _ _) hgap
      exact ⟨b, .starCons (.seq hgroup (matches_plus hne hword)) hmore⟩

theorem gap_notMem (h : gapSet.contains c = true) : (wordSet env).contains c = false := by
  rcases contains_gapSet.mp h with rfl | rfl
  · exact (contains_wordSet (by decide)).trans (by decide)
  · exact (contains_wordSet (by decide)).trans (by decide)

theorem not_gap (h : (wordSet env).contains c = true) : gapSet.contains c = false :=
  Bool.eq_false_iff.mpr fun hgap => Bool.false_ne_true ((gap_notMem hgap).symm.trans h)

/-- The texts that are accepted: words and gaps, with a word first and no space last, but not a word and a dash. -/
theorem accepts_of_legal {cs : List Char} (hlegal : ∀ c ∈ cs, IsLegal env c)
    (hhead : ∃ c ∈ cs.head?, (wordSet env).contains c = true)
    (hlast : cs.getLast? ≠ some ' ') (hdash : ∀ body, (∀ c ∈ body, gapSet.contains c = false) → cs ≠ body ++ ['-']) :
    (configNameMatcher env).matchString cs = true := by
  obtain ⟨word, t, rfl, hword, ht⟩ := exists_run (wordSet env).contains cs
  have hne : word ≠ [] := by
    rintro rfl
    obtain ⟨c, hc, hin⟩ := hhead
    rw [ht c hc] at hin
    cases hin
  obtain ⟨b, hgaps⟩ := matches_gaps (fun c hc => hlegal c (mem_append_right word hc))
    (fun c hc => (hlegal c (mem_append_right _ (mem_of_head? hc))).resolve_left
      (by rw [ht c hc]; exact Bool.false_ne_true))
    (fun h => hlast (by simp [getLast?_append, h]))
      (by rintro rfl; exact hdash word (fun c hc => not_gap (hword c hc)) rfl)
  exact matchString_iff.mpr ⟨[], _, rfl, _, .seq (.start _) (.seq (.seq (matches_plus hne hword) hgaps) (.stop b))⟩

theorem dropWhile_isGap (h : isGap x = false) : (x :: xs).dropWhile isGap = x :: xs := by
  rw [dropWhile_cons, h]
  rfl

/-- Behind a word a gap needs more than a dash. -/
theorem not_loneDash_of_accepts (h : (configNameMatcher env).matchString (xs.map Symbol.rune) = true) :
    ¬LoneDash xs := by
  intro hlone
  obtain ⟨before, rest, heq, q, hmatch⟩ := matchString_iff.mp h
  cases hmatch with
  | seq hstart hmatch =>
    obtain rfl : before = [] := by
      cases before with
      | nil => rfl
      | cons c before => cases hstart
    cases hstart
    rw [nil_append] at heq
    cases hmatch with
    | seq hname hstop =>
      cases hstop
      cases hname with
      | seq hfirst hgaps =>
        obtain ⟨first, more, hword, hrest⟩ := exists_of_matches_plus hfirst
        have hself : xs.dropWhile isGap = xs := by
          obtain ⟨x, ys, rfl, rfl, -⟩ := map_eq_cons_iff.mp (heq.trans hrest)
          exact dropWhile_isGap ((isGap_eq x).trans (not_gap hword))
        rw [LoneDash, hself, endsInDash_iff] at hlone
        obtain ⟨body, hbody, hxs⟩ := hlone
        obtain ⟨taken, htaken, hin⟩ :=
          hfirst.exists_taken (S := fun c => (wordSet env).contains c = true) ⟨fun _ h => h, fun _ h => h⟩
        replace htaken := hxs.symm.trans (heq.trans htaken)
        cases hgaps with
        | starNil =>
          have hmem : '-' ∈ taken ++ [] := htaken ▸ (by simp)
          rw [append_nil] at hmem
          exact absurd (hin _ hmem) (by rw [gap_notMem (by decide)]; exact Bool.false_ne_true)
        | starCons hgroup hmore =>
          cases hgroup with
          | seq hgap hword' =>
            obtain ⟨c, cs, hc, hrest⟩ := exists_of_matches_plus hgap
            obtain ⟨d, ds, -, hrest'⟩ := exists_of_matches_plus hword'
            -- the first character of the gap is not the last of all, so it is before the dash
            have hlast := congrArg List.dropLast htaken
            rw [hrest, hrest', ← append_assoc, dropLast_concat, dropLast_append_of_ne_nil (by simp)] at hlast
            have hmem : c ∈ body := hlast ▸ (by simp)
            exact Bool.false_ne_true ((hbody c hmem).symm.trans hc)

/-! ## What is made -/

theorem isLegal_of_not_isIllegal (h : isIllegal env x = false) : ∃ c, x = .char c ∧ IsLegal env c := by
  simp only [isIllegal, Bool.and_eq_false_iff, Bool.not_eq_false'] at h
  cases x with
  | stray b => simp [isWord, isGap] at h
  | char c => exact ⟨c, rfl, by simpa [isWord, isGap, IsLegal] using h⟩

/-- A text of legal characters without a space at its end, and empty only if `xs` is. -/
structure Mended (env : Env) (xs out : List Symbol) : Prop where
  legal : ∀ x ∈ out, ∃ c, x = .char c ∧ IsLegal env c
  last : out.getLast? ≠ some (.char ' ')
  empty : out = [] → xs = []

theorem Mended.underscore {ys : List Symbol} (h : Mended env ys out) : Mended env xs (.char '_' :: out) where
  legal := forall_mem_cons.mpr ⟨⟨_, rfl, .inl ((contains_wordSet (by decide)).trans (by decide))⟩, h.legal⟩
  last := by
    have hlast := h.last
    cases hout : out.getLast? with
    | none => simp [getLast?_cons, hout]
    | some x => simpa [getLast?_cons, hout] using hlast
  empty := nofun

/-- Where no part is illegal there is a character that stays. -/
theorem of_illegalPart_eq_zero (h : illegalPart env atStart (x :: xs) = 0) :
    isIllegal env x = false ∧ (atStart = true → isGap x = false) ∧ ¬(x :: xs).all (· = .char ' ') = true := by
  simp only [illegalPart] at h
  split_ifs at h with hgap hillegal hspaces
  · simp_all
  · exact absurd h hillegal
  · refine ⟨?_, ?_, hspaces⟩
    · by_contra hx
      simp [takeWhile_cons, hx] at hillegal
    · rintro rfl
      by_contra hx
      simp [takeWhile_cons, hx] at hgap

theorem mended_replaceIllegal : ∀ {fuel : Nat} {xs : List Symbol} (atStart : Bool), xs.length ≤ fuel →
    Mended env xs (replaceIllegal env fuel atStart xs)
  | 0, [], _, _ | _ + 1, [], _, _ => ⟨nofun, nofun, fun _ => rfl⟩
  | fuel + 1, x :: xs, atStart, hfuel => by
    have ih : ∀ n, Mended env (xs.drop n) (replaceIllegal env fuel false (xs.drop n)) := fun n => by
      apply mended_replaceIllegal
      rw [length_drop]
      exact (Nat.sub_le _ _).trans (Nat.le_of_succ_le_succ hfuel)
    rw [replaceIllegal]
    cases hpart : illegalPart env atStart (x :: xs) with
    | succ n => exact (ih n).underscore
    | zero =>
      obtain ⟨hx, -, hspaces⟩ := of_illegalPart_eq_zero hpart
      have hmore := ih 0
      rw [drop_zero] at hmore
      refine ⟨forall_mem_cons.mpr ⟨isLegal_of_not_isIllegal hx, hmore.legal⟩, ?_, nofun⟩
      have hlast := hmore.last
      cases hout : (replaceIllegal env fuel false xs).getLast? with
      | none =>
        obtain rfl := hmore.empty (getLast?_eq_none_iff.mp hout)
        simpa [getLast?_cons, hout] using hspaces
      | some y => simpa [getLast?_cons, hout] using hlast

/-- The first character of what is made is one of a word. -/
theorem head_replaceIllegal (hne : xs ≠ []) (hfuel : xs.length ≤ fuel) :
    ∃ c, (replaceIllegal env fuel true xs).head? = some (.char c) ∧ (wordSet env).contains c = true := by
  obtain ⟨x, xs, rfl⟩ := exists_cons_of_ne_nil hne
  obtain ⟨fuel, rfl⟩ := Nat.exists_eq_succ_of_ne_zero (Nat.ne_of_gt (Nat.zero_lt_of_lt hfuel))
  rw [replaceIllegal]
  cases hpart : illegalPart env true (x :: xs) with
  | succ n => exact ⟨'_', rfl, (contains_wordSet (by decide)).trans (by decide)⟩
  | zero =>
    obtain ⟨hx, hgap, -⟩ := of_illegalPart_eq_zero hpart
    obtain ⟨c, rfl, hc⟩ := isLegal_of_not_isIllegal hx
    refine ⟨c, rfl, hc.resolve_right ?_⟩
    simpa [isGap] using hgap rfl

/-- What was mended is read as it was written, and is accepted unless its only gap is a dash at its end. -/
theorem Mended.accepted_iff (h : Mended env xs out)
    (hhead : ∃ c, out.head? = some (.char c) ∧ (wordSet env).contains c = true) :
    (configNameMatcher env).matchString ((symbols (bytes out)).map Symbol.rune) = true ↔ ¬EndsInDash out := by
  have hvalid : Valid out := fun x hx => (h.legal x hx).imp fun c hc => hc.1
  rw [symbols_bytes hvalid.stable]
  refine ⟨fun haccepts => ?_, fun hdash => accepts_of_legal ?_ ?_ ?_ fun body hbody heq =>
    hdash (endsInDash_iff.mpr ⟨body, hbody, heq⟩)⟩
  · have hlone := not_loneDash_of_accepts haccepts
    obtain ⟨c, hc, hin⟩ := hhead
    obtain ⟨rest, rfl⟩ := head?_eq_some_iff.mp hc
    have hgap : isGap (.char c) = false := (isGap_eq _).trans (not_gap hin)
    rwa [LoneDash, dropWhile_isGap hgap] at hlone
  · intro c hc
    obtain ⟨x, hx, rfl⟩ := mem_map.mp hc
    obtain ⟨c, rfl, hlegal⟩ := h.legal x hx
    exact hlegal
  · obtain ⟨c, hc, hin⟩ := hhead
    exact ⟨c, by simp [hc, Symbol.rune], hin⟩
  · rw [getLast?_map]
    intro hlast
    obtain ⟨x, hx, hspace⟩ := Option.map_eq_some_iff.mp hlast
    obtain ⟨c, rfl⟩ := hvalid x (mem_of_getLast? hx)
    obtain rfl : c = ' ' := hspace
    exact h.last hx

/-! ## Where the dash comes from -/

theorem endsInDash_cons : EndsInDash (x :: xs) ↔ x = .char '-' ∧ xs = [] ∨ isGap x = false ∧ EndsInDash xs := by
  constructor
  · rintro ⟨body, hbody, heq⟩
    cases body with
    | nil => exact .inl (cons.inj heq)
    | cons y body =>
      obtain ⟨rfl, rfl⟩ := cons.inj heq
      rw [forall_mem_cons] at hbody
      exact .inr ⟨hbody.1, body, hbody.2, rfl⟩
  · rintro (⟨rfl, rfl⟩ | ⟨hx, body, hbody, rfl⟩)
    · exact ⟨[], nofun, rfl⟩
    · exact ⟨x :: body, forall_mem_cons.mpr ⟨hx, hbody⟩, rfl⟩

theorem endsInDash_append {run xs : List Symbol} (h : ∀ x ∈ run, isGap x = false) :
    EndsInDash (run ++ xs) ↔ EndsInDash xs := by
  induction run with
  | nil => rfl
  | cons x run ih =>
    rw [forall_mem_cons] at h
    rw [cons_append, endsInDash_cons, ih h.2]
    have hx : x ≠ .char '-' := by
      rintro rfl
      exact absurd h.1 (by decide)
    simp [hx, h.1]

/-- The parts that are replaced: the gaps at the start, a run of illegal characters, and the spaces at the end. -/
theorem illegalPart_eq_succ (h : illegalPart env atStart xs = n + 1) :
    atStart = true ∧ xs.drop (n + 1) = xs.dropWhile isGap ∨
    (∃ x run, xs = x :: run ++ xs.drop (n + 1) ∧ ∀ y ∈ x :: run, isGap y = false) ∨
    xs.drop (n + 1) = [] ∧ ∀ x ∈ xs, x = .char ' ' := by
  have hdrop : ∀ p : Symbol → Bool, xs.drop (xs.takeWhile p).length = xs.dropWhile p := fun p =>
    calc xs.drop (xs.takeWhile p).length
      _ = (xs.takeWhile p ++ xs.dropWhile p).drop (xs.takeWhile p).length := by rw [takeWhile_append_dropWhile]
      _ = xs.dropWhile p := drop_left
  simp only [illegalPart] at h
  split_ifs at h with hgap hillegal hspaces
  · rw [Bool.and_eq_true] at hgap
    exact .inl ⟨hgap.1, h ▸ hdrop isGap⟩
  · obtain ⟨x, run, hrun⟩ := exists_cons_of_ne_nil (ne_nil_of_length_pos (Nat.pos_of_ne_zero hillegal))
    refine .inr (.inl ⟨x, run, ?_, fun y hy => ?_⟩)
    · rw [← h, hdrop, ← hrun, takeWhile_append_dropWhile]
    · have hy := mem_takeWhile_imp (hrun ▸ hy)
      simp only [isIllegal, Bool.and_eq_true, Bool.not_eq_true'] at hy
      exact hy.2
  · refine .inr (.inr ⟨h ▸ drop_length, fun x hx => ?_⟩)
    exact of_decide_eq_true (all_eq_true.mp hspaces x hx)

theorem replaceIllegal_eq_nil (hfuel : xs.length ≤ fuel) : replaceIllegal env fuel atStart xs = [] ↔ xs = [] := by
  refine ⟨(mended_replaceIllegal atStart hfuel).empty, ?_⟩
  rintro rfl
  cases fuel <;> rfl

theorem endsInDash_underscore : EndsInDash (.char '_' :: xs) ↔ EndsInDash xs :=
  @endsInDash_append [.char '_'] xs (by decide)

theorem not_endsInDash_spaces (h : ∀ x ∈ xs, x = .char ' ') : ¬EndsInDash xs := by
  rintro ⟨body, -, rfl⟩
  exact absurd (h (.char '-') (by simp)) (by decide)

/-- What is behind a part that is replaced ends in a lone dash if and only if the whole does, the gaps at the start
apart. -/
theorem endsInDash_drop (h : illegalPart env atStart xs = n + 1) :
    EndsInDash (xs.drop (n + 1)) ↔ EndsInDash (if atStart then xs.dropWhile isGap else xs) := by
  rcases illegalPart_eq_succ h with ⟨rfl, hdrop⟩ | ⟨x, run, hxs, hrun⟩ | ⟨hdrop, hspaces⟩
  · rw [hdrop, if_pos rfl]
  · have hself : xs.dropWhile isGap = xs := by
      rw [hxs]
      exact dropWhile_isGap (hrun x mem_cons_self)
    rw [hself, ite_self]
    nth_rewrite 2 [hxs]
    exact (endsInDash_append hrun).symm
  · rw [hdrop]
    refine iff_of_false (not_endsInDash_spaces nofun) (not_endsInDash_spaces fun x hx => hspaces x ?_)
    split_ifs at hx
    · exact (dropWhile_sublist _).subset hx
    · exact hx

/-- The replacement takes the gaps at the start, and neither makes nor takes a lone dash at the end. -/
theorem endsInDash_replaceIllegal : ∀ {fuel : Nat} {xs : List Symbol} (atStart : Bool), xs.length ≤ fuel →
    (EndsInDash (replaceIllegal env fuel atStart xs) ↔ EndsInDash (if atStart then xs.dropWhile isGap else xs))
  | 0, [], atStart, _ | _ + 1, [], atStart, _ => by cases atStart <;> rfl
  | fuel + 1, x :: xs, atStart, hfuel => by
    have ih : ∀ n, EndsInDash (replaceIllegal env fuel false (xs.drop n)) ↔ EndsInDash (xs.drop n) := fun n => by
      apply endsInDash_replaceIllegal false
      rw [length_drop]
      exact (Nat.sub_le _ _).trans (Nat.le_of_succ_le_succ hfuel)
    rw [replaceIllegal]
    cases hpart : illegalPart env atStart (x :: xs) with
    | succ n => exact endsInDash_underscore.trans ((ih n).trans (endsInDash_drop hpart))
    | zero =>
      have hself : (if atStart then (x :: xs).dropWhile isGap else x :: xs) = x :: xs := by
        split_ifs with hstart
        · exact dropWhile_isGap ((of_illegalPart_eq_zero hpart).2.1 hstart)
        · rfl
      have hmore := ih 0
      rw [drop_zero] at hmore
      rw [hself, endsInDash_cons, endsInDash_cons, hmore, replaceIllegal_eq_nil (Nat.le_of_succ_le_succ hfuel)]

/-- A name that is made is accepted, unless behind the gaps at its start the only gap of the given name is a dash at its
end; and a name that is accepted stays as it is. -/
theorem makeConfigName_accepted_iff (env : Env) (name : Text) :
    (checkConfigName env (makeConfigName env name) = .ok () ↔ ¬LoneDash (symbols name)) ∧
    (checkConfigName env name = .ok () → makeConfigName env name = name) := by
  have hcheck : ∀ name, checkConfigName env name = .ok () ↔
      (configNameMatcher env).matchString ((symbols name).map Symbol.rune) = true := by
    intro name
    rw [checkConfigName]
    split_ifs with h <;> simp [h]
  simp only [hcheck]
  constructor
  · rw [makeConfigName]
    split_ifs with hnil hmatch
    · subst hnil
      have hnone : Mended env [] [] := ⟨nofun, nofun, fun _ => rfl⟩
      have hmended : Mended env [] [.char '_'] := hnone.underscore
      exact (hmended.accepted_iff ⟨'_', rfl, (contains_wordSet (by decide)).trans (by decide)⟩).trans
        endsInDash_underscore.not
    · exact iff_of_true hmatch (not_loneDash_of_accepts hmatch)
    · have hne : symbols name ≠ [] := fun h => hnil (by rw [← bytes_symbols name, h]; rfl)
      have hhead := @head_replaceIllegal env _ _ hne (Nat.le_refl _)
      have haccepted := (mended_replaceIllegal true (Nat.le_refl _)).accepted_iff hhead
      exact haccepted.trans (endsInDash_replaceIllegal true (Nat.le_refl _)).not
  · intro h
    have hne : name ≠ [] := by
      rintro rfl
      exact Bool.false_ne_true h
    rw [makeConfigName, if_neg hne, if_pos h]

/-- The name `a-` is left as it is and not accepted. -/
theorem makeConfigName_not_accepted : makeConfigName ⟨false, [], nofun⟩ (text ['a', '-']) = text ['a', '-'] ∧
    checkConfigName ⟨false, [], nofun⟩ (text ['a', '-']) = .error .invalidCharacters := by
  decide +kernel

end ZClone.Fspath
