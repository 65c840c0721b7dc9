import ZClone.Fspath.ConfigName
import ZClone.Fspath.RoundTrip
import ZClone.Lib.Path

/-!
# Paths joined to a remote (`fs/fspath/path.go`)

- `makeAbsolute` and `joinRootPath` are the functions of the package.
- `parse_of_config`: what stands behind the connection string makes no difference to it.
- `staysLocal_of_parse`: which paths are local ones.
- `joinRootPath_stays_iff`: the joined path is one of the same remote and below its path if and only if the connection
  string has no separators to convert, an empty root does not make the file path absolute, and a local path stays one.
-/

namespace ZClone.Fspath

open Utf8 Paths List

def makeAbsolute (filePath : Text) : Text :=
  let joined := join [[slash], filePath]
  if filePath.head? ≠ some slash ∧ joined.head? = some slash then joined.tail else joined

def joinRootPath (env : Env) (remote filePath : Text) : Text :=
  let remote := toSlash env remote
  if filePath = [] then remote
  else
    let filePath := makeAbsolute (toSlash env filePath)
    if [slash, slash].isPrefixOf remote then slash :: join [remote, filePath]
    else
      match parse env remote with
      -- could not parse, so assume it is a path
      | .error _ => join [remote, filePath]
      | .ok parsed =>
        let remotePath := join [parsed.path, filePath]
        if parsed.configString = [] then remotePath
        else parsed.configString ++ text [':'] ++ if remotePath = here then [] else remotePath

/-! ## The file path -/

theorem makeAbsolute_eq (filePath : Text) :
    makeAbsolute filePath = if filePath.head? = some slash then clean (slash :: filePath)
      else (clean (slash :: filePath)).tail := by
  have hjoin : join [[slash], filePath] = clean (slash :: filePath) := by
    have hclean : join [[slash], filePath] = clean (slash :: slash :: filePath) := by simp [join, render]
    rw [hclean, clean_slash_cons, clean_slash_cons, segments_slash_cons]
    rfl
  rw [makeAbsolute, hjoin, clean_slash_cons]
  by_cases h : filePath.head? = some slash
  · rw [if_neg fun hnot => hnot.1 h, if_pos h]
  · rw [if_pos ⟨h, rfl⟩, if_neg h]

/-- The file path has no steps up. -/
theorem makeAbsolute_names (filePath : Text) : ∀ x ∈ (segments (makeAbsolute filePath)).filter (· ≠ []), IsName x := by
  have hnames := isName_reduce (slash_notMem_segments filePath)
  have hsegments : ∀ x ∈ segments (render (reduce true (segments filePath))), x = [] ∨ IsName x := by
    generalize reduce true (segments filePath) = names at hnames
    by_cases hnil : names = []
    · subst hnil
      simp [render, segments]
    · rw [segments_render hnil fun x hx => (hnames x hx).no_slash]
      exact fun x hx => .inr (hnames x hx)
  intro x hx
  obtain ⟨hmem, hne⟩ := mem_filter.mp hx
  replace hne := of_decide_eq_true hne
  rw [makeAbsolute_eq, clean_slash_cons] at hmem
  split_ifs at hmem
  · rw [segments_slash_cons, mem_cons] at hmem
    exact (hsegments x (hmem.resolve_left hne)).resolve_left hne
  · exact (hsegments x hmem).resolve_left hne

theorem head_makeAbsolute (filePath : Text) :
    (makeAbsolute filePath).head? = some slash ↔ filePath.head? = some slash := by
  rw [makeAbsolute_eq, clean_slash_cons]
  split_ifs with h
  · exact iff_of_true rfl h
  · exact iff_of_false (head_render fun x hx => (isName_reduce (slash_notMem_segments filePath) x hx).toIsSegment) h

/-- Behind a root it makes no difference whether the file path begins with a slash. -/
theorem join_makeAbsolute {root : Text} (h : root ≠ []) (filePath : Text) :
    join [root, makeAbsolute filePath] = join [root, clean (slash :: filePath)] := by
  rw [makeAbsolute_eq, clean_slash_cons]
  split_ifs
  · rfl
  · exact (join_slash_cons h _).symm

/-! ## The separators of Windows -/

section

variable {env : Env}

/-- There is nothing to convert. -/
def Slashed (env : Env) (p : Text) : Prop := env.windows = true → 0x5C ∉ p

variable {p path q remote first : Text} {parsed : Parsed} {x : Symbol} {s : Scan} {ys rest : List Symbol}
  {letter : UInt8}

theorem toSlash_of_slashed (h : Slashed env p) : toSlash env p = p := by
  rw [toSlash]
  split_ifs with hwindows
  · refine (map_congr_left fun b hb => if_neg ?_).trans (map_id p)
    rintro rfl
    exact h hwindows hb
  · rfl

theorem slashed_toSlash (env : Env) (p : Text) : Slashed env (toSlash env p) := by
  intro hwindows hmem
  rw [toSlash, if_pos hwindows] at hmem
  obtain ⟨b, -, hb⟩ := mem_map.mp hmem
  split_ifs at hb with hne
  · cases hb
  · exact hne hb

theorem toSlash_append (p q : Text) : toSlash env (p ++ q) = toSlash env p ++ toSlash env q := by
  rw [toSlash, toSlash, toSlash]
  split_ifs
  · exact map_append
  · rfl

theorem Slashed.append_left (h : Slashed env (p ++ q)) : Slashed env p :=
  fun hwindows hmem => h hwindows (mem_append_left q hmem)

theorem slashed_join (hp : Slashed env p) (hq : Slashed env q) : Slashed env (join [p, q]) := by
  intro hwindows hmem
  have hclean : ∀ {r : Text}, 0x5C ∈ clean r → 0x5C ∈ r := mem_of_mem_clean (by decide) (by decide)
  rw [join] at hmem
  split_ifs at hmem
  · cases hmem
  · obtain ⟨r, hr, hb⟩ := (mem_render (by decide)).mp (hclean hmem)
    have hr' : r ∈ [p, q] := (dropWhile_suffix _).subset hr
    rcases mem_pair.mp hr' with rfl | rfl
    · exact hp hwindows hb
    · exact hq hwindows hb

theorem slashed_makeAbsolute (h : Slashed env p) : Slashed env (makeAbsolute p) := by
  have hjoin : Slashed env (join [[slash], p]) := slashed_join (fun _ => by decide) h
  rw [makeAbsolute]
  split_ifs
  · exact fun hwindows hmem => hjoin hwindows (mem_of_mem_tail hmem)
  · exact hjoin

/-! ## Connection strings -/

/-- A turn that does not leave the loop does not look at the path as a whole. -/
theorem turn_congr (path' : Text) (h : ∀ r, turn env path s x ≠ .leave r) : turn env path' s x = turn env path s x := by
  rw [turn] at h ⊢
  rw [turn]
  cases hs : s.state with
  | configName =>
    rw [hs] at h
    rw [turnConfigName] at h ⊢
    rw [turnConfigName]
    cases hcheck : checkRemoteName env (s.before ++ text [':']) <;> rw [hcheck] at h <;> split_ifs at h ⊢ <;>
      first | rfl | exact absurd rfl (h _)
  | _ => rfl

/-- The turns of a loop that ends at a colon. -/
theorem loop_cons (path' : Text) (hlocal : parsed ≠ localPath env path) (h : loop env path s (x :: rest) = .ok parsed) :
    (∃ s', turn env path' s x = .next s' ∧ s'.before = s.before ++ x.bytes ∧ loop env path s' rest = .ok parsed) ∨
    ∃ s', turn env path' s x = .done s' ∧ x = .char ':' ∧ s'.before = s.before ∧
      parsed = ⟨s'.name, s'.before, toSlash env (bytes rest), s'.config⟩ := by
  have hstep := steps_turn env path s x
  rw [loop] at h
  cases hturn : turn env path s x with rw [hturn] at h hstep
  | next s' =>
    exact .inl ⟨s', (turn_congr path' (by simp [hturn])).trans hturn, hstep, h⟩
  | leave r =>
    dsimp only at h
    rw [h] at hstep
    exact absurd hstep hlocal
  | done s' =>
    exact .inr ⟨s', (turn_congr path' (by simp [hturn])).trans hturn, hstep.2.1, hstep.1, (Except.ok.inj h).symm⟩

theorem loop_length (hlocal : parsed ≠ localPath env path) : ∀ {xs : List Symbol} {s : Scan},
    loop env path s xs = .ok parsed → s.before.length ≤ parsed.configString.length
  | x :: xs, s, h => by
    obtain ⟨s', -, hbefore, hrest⟩ | ⟨s', -, -, hbefore, rfl⟩ := loop_cons path hlocal h
    · have hle := loop_length hlocal hrest
      rw [hbefore, length_append] at hle
      omega
    · exact (congrArg length hbefore).ge

/-- The loop ends at the same colon whatever stands behind it. -/
theorem loop_of_config {path path' : Text} {ys' : List Symbol} (hne : parsed.configString ≠ []) :
    ∀ {xs : List Symbol} {s : Scan}, s.before ++ bytes xs = parsed.configString →
      loop env path s (xs ++ .char ':' :: ys) = .ok parsed →
      loop env path' s (xs ++ .char ':' :: ys') = .ok { parsed with path := toSlash env (bytes ys') } := by
  have hlocal : parsed ≠ localPath env path := fun h => hne (by rw [h]; rfl)
  intro xs
  induction xs with
  | nil =>
    intro s hbefore h
    rw [bytes_nil, append_nil] at hbefore
    obtain ⟨s', -, hbefore', hrest⟩ | ⟨s', hturn, -, -, rfl⟩ := loop_cons path' hlocal h
    · have hlen := loop_length hlocal hrest
      have hpos := length_pos_iff.mpr (Symbol.bytes_ne_nil (.char ':'))
      rw [hbefore', hbefore, length_append] at hlen
      omega
    · rw [nil_append, loop, hturn]
  | cons x xs ih =>
    intro s hbefore h
    obtain ⟨s', hturn, hbefore', hrest⟩ | ⟨s', -, -, hbefore', rfl⟩ := loop_cons path' hlocal h
    · rw [cons_append, loop, hturn]
      refine ih ?_ hrest
      rw [hbefore', append_assoc]
      exact hbefore
    · -- the loop can not end before the colon
      have hlen := congrArg length hbefore
      have hpos := length_pos_iff.mpr (Symbol.bytes_ne_nil x)
      simp only [hbefore', bytes, flatMap_cons, length_append] at hlen
      omega

/-- What stands behind the connection string makes no difference to it. -/
theorem parse_of_config {config rest : Text} (rest' : Text) (hconfig : parsed.configString = config) (hne : config ≠ [])
    (h : parse env (config ++ text [':'] ++ rest) = .ok parsed) :
    parse env (config ++ text [':'] ++ rest') = .ok { parsed with path := toSlash env rest' } := by
  have hsymbols : ∀ rest, symbols (config ++ text [':'] ++ rest) = symbols config ++ .char ':' :: symbols rest := by
    intro rest
    rw [append_assoc]
    exact symbols_append_char config ':' rest
  have hparse : ∀ rest, parse env (config ++ text [':'] ++ rest) =
      loop env (config ++ text [':'] ++ rest) .start (symbols config ++ .char ':' :: symbols rest) := by
    intro rest
    rw [parse, if_neg (by simp [hne]), hsymbols, if_neg (by simp)]
  rw [hparse] at h ⊢
  subst hconfig
  have hstart : Scan.start.before ++ bytes (symbols parsed.configString) = parsed.configString := bytes_symbols _
  rw [loop_of_config hne hstart h, bytes_symbols]

/-! ## Local paths -/

/-- Before a colon or a comma there is a separator. -/
theorem loop_separator (hhead : path.head? ≠ some 0x3A) {sep : Char} (hsep : sep = '/' ∨ sep = '\\') :
    ∀ {xs : List Symbol} {s : Scan}, s.state = .configName → (∀ x ∈ xs, x.rune ≠ ':' ∧ x.rune ≠ ',') →
      loop env path s (xs ++ .char sep :: ys) = .ok (localPath env path)
  | [], s, hs, _ => by
    have hcolon : sep ≠ ':' := by rcases hsep with rfl | rfl <;> decide
    rw [nil_append, loop, turn, hs]
    simp [turnConfigName, Symbol.rune, hcolon, hsep, hhead]
  | x :: xs, s, hs, hxs => by
    obtain ⟨hcolon, hcomma⟩ := hxs x mem_cons_self
    rw [cons_append, loop, turn, hs]
    by_cases hx : x.rune = '/' ∨ x.rune = '\\'
    · simp [turnConfigName, hcolon, hx, hhead]
    · simp only [turnConfigName, hcolon, hcomma, hx, and_false, or_self, if_false]
      exact loop_separator hhead hsep hs fun y hy => hxs y (mem_cons_of_mem x hy)

/-- What makes a path a local one: it has no colon, or no colon and no comma before the first separator, or a drive
letter. -/
def StaysLocal (env : Env) (p : Text) : Prop :=
  0x3A ∉ p ∨ (∃ first sep rest, p = first ++ sep :: rest ∧ (sep = 0x2F ∨ sep = 0x5C) ∧ 0x3A ∉ first ∧ 0x2C ∉ first) ∨
    ∃ letter rest, p = letter :: 0x3A :: rest ∧ isDriveLetter env [letter] = true

theorem rune_ne {c : Char} (hc : '�' ≠ c) {b : UInt8} (hb : encodeRune c = [b]) (hnot : b ∉ first) :
    ∀ x ∈ symbols first, x.rune ≠ c := by
  intro x hx hrune
  rw [eq_char_of_rune hc hrune] at hx
  have hmem : b ∈ bytes (symbols first) := mem_flatMap.mpr ⟨_, hx, by simp [Symbol.bytes, hb]⟩
  rw [bytes_symbols] at hmem
  exact hnot hmem

/-- A drive letter is a character of names. -/
theorem exists_letter (h : isDriveLetter env [letter] = true) : ∃ c : Char, encodeRune c = [letter] ∧
    (wordSet env).contains c = true ∧ c ∉ [':', ',', '/', '\\'] := by
  have hall : ∀ b : UInt8, ((0x61 ≤ b && b ≤ 0x7A) || (0x41 ≤ b && b ≤ 0x5A)) = true →
      encodeRune (.ofNat b.toNat) = [b] ∧ (Char.ofNat b.toNat).toNat < 0x80 ∧
      (⟨false, [('0', '9'), ('A', 'Z'), ('_', '_'), ('a', 'z'), ('.', '.'), ('+', '+'), ('@', '@')]⟩ :
        Regexp.CharSet).contains
        (.ofNat b.toNat) = true ∧ Char.ofNat b.toNat ∉ [':', ',', '/', '\\'] := forall_byte (by decide +kernel)
  obtain ⟨hencode, hlt, hword, hnot⟩ := hall letter (Bool.and_eq_true_iff.mp h).2
  exact ⟨_, hencode, (contains_wordSet hlt).trans hword, hnot⟩

theorem loop_drive {path rest : Text} (h' : isDriveLetter env [letter] = true) :
    loop env path .start (symbols (letter :: 0x3A :: rest)) = .ok (localPath env path) := by
  obtain ⟨c, hencode, hword, hnot⟩ := exists_letter h'
  simp only [mem_cons, not_mem_nil, or_false, not_or] at hnot
  obtain ⟨hcolon, hcomma, hslash, hbackslash⟩ := hnot
  have hsymbols : ∀ rest, symbols (letter :: 0x3A :: rest) = .char c :: .char ':' :: symbols rest := by
    intro rest
    have happend := symbols_append_char (encodeRune c) ':' rest
    have hone := symbols_encodeRune c []
    rw [append_nil] at hone
    rw [hone, hencode] at happend
    exact happend
  have hcheck : checkRemoteName env ([letter] ++ text [':']) = .ok () := by
    have hmatch : (remoteNameMatcher env).matchString [c, ':'] = true :=
      Regexp.matchString_iff.mpr ⟨[], _, rfl, _, .seq (.start _) (.seq (.altRight (.eps _)) (.seq (.seq
        (matches_plus (cons_ne_nil c []) (forall_mem_singleton.mpr hword)) (.starNil _ _))
        (.altLeft (.seq (.set _ _ ':' [] (by decide)) (.stop _)))))⟩
    rw [checkRemoteName, if_neg]
    · change (if (remoteNameMatcher env).matchString ((symbols [letter, 0x3A]).map Symbol.rune) = true then _ else _) =
        _
      rw [hsymbols]
      exact if_pos hmatch
    · rintro (h | h)
      · cases h
      · obtain rfl : letter = 0x3A := (cons.inj h).1
        exact absurd (Bool.and_eq_true_iff.mp h').2 (by decide)
  rw [hsymbols, loop, turn]
  simp only [turnConfigName, Scan.start, Symbol.rune, hcolon, hcomma, hslash, hbackslash, and_false, or_self, if_false]
  have hbefore : ([] : Text) ++ Symbol.bytes (.char c) = [letter] := hencode
  simp only [loop, turn, turnConfigName, Scan.pass, hbefore, hcheck, h']
  simp [Symbol.rune]

theorem parse_of_staysLocal (hne : p ≠ []) (h : StaysLocal env p) : parse env p = .ok (localPath env p) := by
  rw [parse, if_neg hne]
  by_cases hcolon : .char ':' ∈ symbols p
  · rw [if_neg (not_not.mpr hcolon)]
    rcases h with hnone | ⟨first, sep, rest, rfl, hsep, hcolon', hcomma⟩ | ⟨letter, rest, rfl, hletter⟩
    · exact absurd rfl (rune_ne (by decide) rfl hnone _ hcolon)
    · have hrunes : ∀ x ∈ symbols first, x.rune ≠ ':' ∧ x.rune ≠ ',' := fun x hx =>
        ⟨rune_ne (by decide) rfl hcolon' x hx, rune_ne (by decide) rfl hcomma x hx⟩
      have hhead : (first ++ sep :: rest).head? ≠ some 0x3A := by
        cases first with
        | nil => rcases hsep with rfl | rfl <;> simp
        | cons b first => exact fun h => hcolon' (by simp_all)
      rcases hsep with rfl | rfl
      · have hsymbols : symbols (first ++ 0x2F :: rest) = symbols first ++ .char '/' :: symbols rest :=
          symbols_append_char first '/' rest
        rw [hsymbols]
        exact loop_separator hhead (.inl rfl) rfl hrunes
      · have hsymbols : symbols (first ++ 0x5C :: rest) = symbols first ++ .char '\\' :: symbols rest :=
          symbols_append_char first '\\' rest
        rw [hsymbols]
        exact loop_separator hhead (.inr rfl) rfl hrunes
    · exact loop_drive hletter
  · rw [if_pos hcolon]

/-- From here on the path can not turn out to be a local one: the name is complete, or there is a colon in front of
it. -/
def Remote (path : Text) (s : Scan) : Prop :=
  s.before ≠ [] ∧ (s.state = .configName → path.head? = some 0x3A ∧ s.before.head? = some 0x3A)

/-- What a turn may do to such a path. -/
def KeepsRemote (path : Text) : Turn → Prop
  | .next s' => s'.state = .configName → path.head? = some 0x3A ∧ s'.before.head? = some 0x3A
  | .leave r => ∀ parsed, r ≠ .ok parsed
  | .done _ => True

theorem keepsRemote_error (path : Text) (e : Error) : KeepsRemote path (.leave (.error e)) := by
  intro parsed h
  cases h

theorem keepsRemote_endValue (path : Text) (s : Scan) (x : Symbol) : KeepsRemote path (s.endValue x) := by
  rw [Scan.endValue]
  split_ifs
  · trivial
  · exact fun h => State.noConfusion h

theorem keepsRemote_turn (env : Env) (hs : Remote path s) (x : Symbol) : KeepsRemote path (turn env path s x) := by
  obtain ⟨hne, hname⟩ := hs
  rw [turn]
  cases hstate : s.state with
  | configName =>
    obtain ⟨hhead, hbefore⟩ := hname hstate
    obtain ⟨before, hcolon⟩ := head?_eq_some_iff.mp hbefore
    have hdrive : isDriveLetter env s.before = false := by
      rw [hcolon]
      cases before <;> exact Bool.and_false _
    have hpass : KeepsRemote path (.next (s.pass x.bytes)) := fun _ => ⟨hhead, by rw [Scan.pass, hcolon]; rfl⟩
    change KeepsRemote path (turnConfigName env path s x)
    rw [turnConfigName, if_neg fun h => hne h.1, if_pos hhead, hdrive]
    cases checkRemoteName env (s.before ++ text [':']) with
    | error e =>
      dsimp only
      split_ifs
      · exact keepsRemote_error path _
      · exact keepsRemote_error path _
      · exact hpass
    | ok =>
      split_ifs
      · exact keepsRemote_error path _
      · contradiction
      · trivial
      · exact fun h => State.noConfusion h
      · exact hpass
  | param =>
    change KeepsRemote path (turnParam s x)
    rw [turnParam]
    split_ifs
    · exact keepsRemote_error path _
    · exact fun h => State.noConfusion h
    · exact keepsRemote_endValue path _ x
    · exact fun h => State.noConfusion (hstate.symm.trans h)
    · exact keepsRemote_error path _
  | value =>
    change KeepsRemote path (turnValue s x)
    rw [turnValue]
    split_ifs
    · exact fun h => State.noConfusion h
    · exact fun h => State.noConfusion (hstate.symm.trans h)
    · exact keepsRemote_endValue path _ x
    · exact fun h => State.noConfusion (hstate.symm.trans h)
  | quotedValue =>
    change KeepsRemote path (turnQuotedValue s x)
    rw [turnQuotedValue]
    split_ifs
    · exact fun h => State.noConfusion h
    · exact fun h => State.noConfusion (hstate.symm.trans h)
  | afterQuote =>
    change KeepsRemote path (turnAfterQuote s x)
    rw [turnAfterQuote]
    split_ifs
    · exact keepsRemote_endValue path _ x
    · exact keepsRemote_endValue path _ x
    · exact fun h => State.noConfusion h
    · exact keepsRemote_error path _

theorem loop_remote : ∀ {xs : List Symbol} {s : Scan}, Remote path s →
    loop env path s xs = .ok parsed → parsed.configString ≠ []
  | x :: xs, s, hs, h => by
    have hstep := steps_turn env path s x
    have hkeeps := keepsRemote_turn env hs x
    rw [loop] at h
    cases hturn : turn env path s x with
    | next s' =>
      rw [hturn] at h hstep hkeeps
      refine loop_remote ⟨fun hnil => ?_, hkeeps⟩ h
      exact hs.1 (append_eq_nil_iff.mp (hstep.symm.trans hnil)).1
    | leave r =>
      rw [hturn] at h hkeeps
      exact absurd h (hkeeps parsed)
    | done s' =>
      rw [hturn] at h hstep
      cases h
      exact fun hnil => hs.1 (hstep.1.symm.trans hnil)

/-- The characters of the first name are passed. -/
theorem loop_name_pass : ∀ {xs : List Symbol} {s : Scan}, s.state = .configName →
    (∀ x ∈ xs, x.rune ∉ [':', ',', '/', '\\']) → loop env path s (xs ++ ys) = loop env path (s.pass (bytes xs)) ys
  | [], s, _, _ => by rw [bytes_nil, Scan.pass_nil, nil_append]
  | x :: xs, s, hs, hxs => by
    have hx := hxs x mem_cons_self
    simp only [mem_cons, not_mem_nil, or_false, not_or] at hx
    have hturn : turn env path s x = .next (s.pass x.bytes) := by
      rw [turn, hs]
      simp [turnConfigName, hx]
    rw [cons_append, loop_next hturn, loop_name_pass (s := s.pass x.bytes) hs fun y hy => hxs y (mem_cons_of_mem x hy),
      Scan.pass_pass]
    rfl

theorem exists_of_isDriveLetter {name : Text} (h : isDriveLetter env name = true) : ∃ letter, name = [letter] := by
  rcases name with _ | ⟨letter, _ | ⟨b, name⟩⟩
  · simp [isDriveLetter] at h
  · exact ⟨letter, rfl⟩
  · simp [isDriveLetter] at h

/-- A colon or a comma behind the first name: a drive letter, or a remote. -/
theorem of_loop_name {path : Text} (hx : x.rune = ':' ∨ x.rune = ',')
    (hhead : x.rune = ':' → first = [] → path.head? = some 0x3A)
    (h : loop env path (Scan.start.pass first) (x :: rest) = .ok parsed) (hconfig : parsed.configString = []) :
    x.rune = ':' ∧ isDriveLetter env first = true := by
  have hsep : ¬(x.rune = '/' ∨ x.rune = '\\') := by rcases hx with hx | hx <;> rw [hx] <;> decide
  have hbefore : (Scan.start.pass first).before = first := rfl
  have hturn : turn env path (Scan.start.pass first) x = turnConfigName env path (Scan.start.pass first) x := rfl
  rw [loop, hturn, turnConfigName, hbefore, if_neg hsep, if_pos hx] at h
  by_cases hfirst : first = [] ∧ x.rune = ':'
  · rw [if_pos hfirst] at h
    obtain ⟨rfl, hcolon⟩ := hfirst
    obtain rfl := eq_char_of_rune (by decide) hcolon
    exact absurd hconfig (loop_remote ⟨by decide, fun _ => ⟨hhead rfl rfl, rfl⟩⟩ h)
  rw [if_neg hfirst] at h
  cases hcheck : checkRemoteName env (first ++ text [':']) with rw [hcheck] at h
  | error e =>
    cases h
  | ok =>
    by_cases hcolon : x.rune = ':'
    · rw [if_pos hcolon] at h
      by_cases hdrive : isDriveLetter env first = true
      · exact ⟨hcolon, hdrive⟩
      · rw [if_neg hdrive] at h
        cases h
        exact absurd ⟨hconfig, hcolon⟩ hfirst
    · rw [if_neg hcolon] at h
      have hne : first ++ x.bytes ≠ [] := append_ne_nil_of_right_ne_nil _ (Symbol.bytes_ne_nil x)
      exact absurd hconfig (loop_remote ⟨hne, fun hstate => State.noConfusion hstate⟩ h)

/-- Only these are parsed as local paths. -/
theorem staysLocal_of_parse (h : parse env p = .ok parsed) (hconfig : parsed.configString = []) : StaysLocal env p := by
  by_cases hcolon : 0x3A ∈ p
  · have hne : p ≠ [] := ne_nil_of_mem hcolon
    have hmem : .char ':' ∈ symbols p := by
      obtain ⟨before, after, rfl⟩ := append_of_mem hcolon
      have hsymbols : symbols (before ++ 0x3A :: after) = _ := symbols_append_char before ':' after
      simp [hsymbols]
    rw [parse, if_neg hne, if_neg (not_not.mpr hmem)] at h
    obtain ⟨first, rest, rfl, hfirst, hrest⟩ := exists_run (fun b : UInt8 => b ∉ [0x3A, 0x2C, 0x2F, 0x5C]) p
    simp only [decide_eq_true_eq, decide_eq_false_iff_not, not_not] at hfirst hrest
    have hnot : ∀ b ∈ [0x3A, 0x2C, 0x2F, 0x5C], b ∉ first := fun b hb hmem => hfirst b hmem hb
    cases rest with
    | nil =>
      rw [append_nil] at hcolon
      exact absurd hcolon (hnot _ (by simp))
    | cons b rest =>
      have hloop : ∀ c, encodeRune c = [b] →
          loop env (first ++ b :: rest) (Scan.start.pass first) (.char c :: symbols rest) = .ok parsed := by
        intro c hc
        have hsymbols := symbols_append_char first c rest
        rw [hc] at hsymbols
        change symbols (first ++ b :: rest) = _ at hsymbols
        rw [hsymbols, loop_name_pass rfl, bytes_symbols] at h
        · exact h
        · intro x hx
          have hrune := fun c hc b hb hin => rune_ne (c := c) hc (b := b) hb (hnot b hin) x hx
          simp only [mem_cons, not_mem_nil, or_false, not_or]
          exact ⟨hrune ':' (by decide) 0x3A rfl (by simp), hrune ',' (by decide) 0x2C rfl (by simp),
            hrune '/' (by decide) 0x2F rfl (by simp), hrune '\\' (by decide) 0x5C rfl (by simp)⟩
      have hsep : ∀ b, b = 0x2F ∨ b = 0x5C → StaysLocal env (first ++ b :: rest) := fun b hb =>
        .inr (.inl ⟨first, b, rest, rfl, hb, hnot _ (by simp), hnot _ (by simp)⟩)
      have hb := hrest b rfl
      simp only [mem_cons, not_mem_nil, or_false] at hb
      rcases hb with rfl | rfl | hb
      · obtain ⟨-, hdrive⟩ := of_loop_name (.inl rfl) (by rintro - rfl; rfl) (hloop ':' rfl) hconfig
        obtain ⟨letter, rfl⟩ := exists_of_isDriveLetter hdrive
        exact .inr (.inr ⟨letter, rest, rfl, hdrive⟩)
      · exact absurd (of_loop_name (.inr rfl) (fun h => absurd h (by decide)) (hloop ',' rfl) hconfig).1 (by decide)
      · exact hsep b hb
  · exact .inl hcolon

/-! ## Joining -/

/-- A local path that is parsed as such has its path to itself. -/
theorem parse_local (hne : p ≠ []) (hslashed : Slashed env p) (h : StaysLocal env p) :
    parse env p = .ok ⟨[], [], p, none⟩ := by
  rw [parse_of_staysLocal hne h, localPath, toSlash_of_slashed hslashed]

theorem staysLocal_slash (p : Text) :
    StaysLocal env (slash :: p) := .inr (.inl ⟨[], slash, p, rfl, .inl rfl, by simp, by simp⟩)

theorem below_network {root : Text} (h : Below root p) (hroot : root.head? = some slash) : Below root (slash :: p) := by
  obtain ⟨hhead, names, hnames, hcleaned⟩ := h
  refine ⟨iff_of_true rfl hroot, names, hnames, ?_⟩
  rw [cleaned_slash_cons, ← hcleaned, cleaned, decide_eq_true (hhead.mpr hroot)]

theorem staysLocal_toSlash (h : StaysLocal env p) : StaysLocal env (toSlash env p) := by
  have hmem : ∀ {b : UInt8} {q : Text}, b ≠ 0x2F → b ∉ q → b ∉ toSlash env q := by
    intro b q hb hq hmem
    rw [toSlash] at hmem
    split_ifs at hmem
    · obtain ⟨c, hc, rfl⟩ := mem_map.mp hmem
      by_cases hslash : c = 0x5C
      · exact hb (if_pos hslash)
      · rw [if_neg hslash] at hq
        exact hq hc
    · exact hq hmem
  have hcons : ∀ b q, toSlash env (b :: q) = (if env.windows = true ∧ b = 0x5C then 0x2F else b) :: toSlash env q := by
    intro b q
    rw [toSlash, toSlash]
    cases env.windows <;> simp
  rcases h with hnone | ⟨first, sep, rest, rfl, hsep, hcolon, hcomma⟩ | ⟨letter, rest, rfl, hletter⟩
  · exact .inl (hmem (by decide) hnone)
  · rw [toSlash_append, hcons]
    refine .inr (.inl ⟨_, _, _, rfl, ?_, hmem (by decide) hcolon, hmem (by decide) hcomma⟩)
    split_ifs
    · exact .inl rfl
    · exact hsep
  · have hnot : letter ≠ 0x5C := by
      rintro rfl
      exact absurd (Bool.and_eq_true_iff.mp hletter).2 (by decide)
    rw [hcons, hcons, if_neg fun h => hnot h.2, if_neg (by simp)]
    exact .inr (.inr ⟨letter, _, rfl, hletter⟩)

theorem ne_nil_of_parse (h : parse env p = .ok parsed) : p ≠ [] := by
  rintro rfl
  cases h

/-- A remote is read the same with slashes, unless there is a backslash in its connection string. -/
theorem parse_toSlash (h : parse env remote = .ok parsed) (hslashed : Slashed env parsed.configString) :
    parse env (toSlash env remote) = .ok parsed := by
  have hidem : ∀ p, toSlash env (toSlash env p) = toSlash env p := fun p => toSlash_of_slashed (slashed_toSlash env p)
  obtain rfl | ⟨hne, rest, rfl, hpath⟩ := parse_splits h
  · have hlocal := staysLocal_toSlash (staysLocal_of_parse h rfl)
    have hremote := ne_nil_of_parse h
    have hnil : toSlash env remote ≠ [] := by
      rw [toSlash]
      split_ifs
      · simpa using hremote
      · exact hremote
    rw [parse_of_staysLocal hnil hlocal, localPath, hidem]
    rfl
  · have hcolon : toSlash env (text [':']) = text [':'] := toSlash_of_slashed fun _ => by decide
    rw [toSlash_append, toSlash_append, toSlash_of_slashed hslashed, hcolon, parse_of_config _ rfl hne h, hidem,
      ← hpath]

theorem slashed_joinRootPath (env : Env) (remote filePath : Text) : Slashed env (joinRootPath env remote filePath) := by
  have hremote := slashed_toSlash env remote
  have hfile := slashed_makeAbsolute (slashed_toSlash env filePath)
  have hjoin := slashed_join hremote hfile
  rw [joinRootPath]
  split_ifs
  · exact hremote
  · exact fun hwindows hmem => hjoin hwindows ((mem_cons.mp hmem).resolve_left (by decide))
  · cases hparse : parse env (toSlash env remote) with
    | error e => exact hjoin
    | ok parsed =>
      obtain rfl | ⟨hconfig, rest, heq, hpath⟩ := parse_splits hparse
      · exact slashed_join (slashed_toSlash env _) hfile
      · rw [heq, append_assoc] at hremote
        have hrest : Slashed env (join [parsed.path, makeAbsolute (toSlash env filePath)]) :=
          slashed_join (hpath ▸ slashed_toSlash env rest) hfile
        dsimp only
        rw [if_neg hconfig]
        intro hwindows hmem
        simp only [mem_append] at hmem
        rcases hmem with (hmem | hmem) | hmem
        · exact hremote.append_left hwindows hmem
        · exact absurd hmem (by decide)
        · split_ifs at hmem
          · cases hmem
          · exact hrest hwindows hmem

/-- The root and the file path joined: a local path, with two slashes in front if the root has them, or a path behind
the connection string. -/
theorem joinRootPath_cases {filePath : Text} (h : parse env (toSlash env remote) = .ok parsed) (hfile : filePath ≠ []) :
    (parsed = ⟨[], [], toSlash env remote, none⟩ ∧
      let joined := join [toSlash env remote, makeAbsolute (toSlash env filePath)]
      (joinRootPath env remote filePath = joined ∨
        (toSlash env remote).head? = some slash ∧ joinRootPath env remote filePath = slash :: joined)) ∨
    parsed.configString ≠ [] ∧
      let joined := join [parsed.path, makeAbsolute (toSlash env filePath)]
      parse env (joinRootPath env remote filePath) =
        .ok { parsed with path := if joined = here then [] else joined } := by
  have hslashed := slashed_toSlash env remote
  have hslashed' := slashed_joinRootPath env remote filePath
  have hlocal : localPath env (toSlash env remote) = ⟨[], [], toSlash env remote, none⟩ := by
    rw [localPath, toSlash_of_slashed hslashed]
  rw [joinRootPath, if_neg hfile] at hslashed' ⊢
  generalize toSlash env remote = remote at *
  generalize makeAbsolute (toSlash env filePath) = absolute at *
  by_cases hnetwork : [slash, slash].isPrefixOf remote = true
  · obtain ⟨q, rfl⟩ := isPrefixOf_iff_prefix.mp hnetwork
    have hparse := parse_local (cons_ne_nil _ _) hslashed (staysLocal_slash (slash :: q))
    cases h.symm.trans hparse
    exact .inl ⟨rfl, .inr ⟨rfl, if_pos hnetwork⟩⟩
  · rw [if_neg hnetwork, h] at hslashed' ⊢
    dsimp only at hslashed' ⊢
    obtain rfl | ⟨hconfig, rest, hremote, hpath⟩ := parse_splits h
    · rw [hlocal]
      exact .inl ⟨rfl, .inl rfl⟩
    · rw [if_neg hconfig] at hslashed' ⊢
      rw [hremote] at h
      refine .inr ⟨hconfig, ?_⟩
      rw [parse_of_config _ rfl hconfig h,
        toSlash_of_slashed fun hwindows hmem => hslashed' hwindows (mem_append_right _ hmem)]

/-- What keeps the joined path in its remote and below the root: on Windows there is no backslash in the connection
string, an empty root does not make the file path absolute, and what is joined to a local path is still one. -/
structure Stays (env : Env) (remote filePath : Text) (parsed : Parsed) : Prop where
  slashed : Slashed env parsed.configString
  root : parsed.path = [] → (toSlash env filePath).head? ≠ some slash
  isLocal : parsed.configString = [] → filePath ≠ [] →
    StaysLocal env (join [toSlash env remote, clean (slash :: toSlash env filePath)])

/-- The joined path is one of the same remote and below its path if and only if these conditions hold. -/
theorem joinRootPath_stays_iff (env : Env) {remote filePath : Text} {parsed : Parsed}
    (h : parse env remote = .ok parsed) :
    (∃ p, parse env (joinRootPath env remote filePath) = .ok { parsed with path := p } ∧ Below parsed.path p) ↔
      Stays env remote filePath parsed := by
  have hnames := makeAbsolute_names (toSlash env filePath)
  have hhead := head_makeAbsolute (toSlash env filePath)
  constructor
  · rintro ⟨p, hp, hbelow⟩
    have hslashed : Slashed env parsed.configString := by
      have hjoined := slashed_joinRootPath env remote filePath
      obtain hlocal | ⟨-, rest, heq, -⟩ := parse_splits hp
      · rw [show parsed.configString = [] from congrArg Parsed.configString hlocal]
        exact fun _ => not_mem_nil
      · rw [heq, append_assoc] at hjoined
        exact hjoined.append_left
    have hsame := parse_toSlash h hslashed
    have hne := ne_nil_of_parse hsame
    refine ⟨hslashed, fun hroot hslash => ?_, fun hconfig hfile => ?_⟩
    · have hfile : filePath ≠ [] := by
        rintro rfl
        rw [toSlash_of_slashed fun _ => not_mem_nil] at hslash
        cases hslash
      obtain ⟨rfl, -⟩ | ⟨-, hparse⟩ := joinRootPath_cases hsame hfile
      · exact hne hroot
      · -- the absolute file path is the whole path
        have hslash' : (join [parsed.path, makeAbsolute (toSlash env filePath)]).head? = some slash := by
          obtain ⟨q, hq⟩ := head?_eq_some_iff.mp (hhead.mpr hslash)
          have hjoin : join [[], slash :: q] = clean (slash :: q) := by simp [join, render_singleton]
          rw [hroot, hq, hjoin, clean_slash_cons]
          rfl
        have hhere : join [parsed.path, makeAbsolute (toSlash env filePath)] ≠ here := by
          intro hhere
          rw [hhere] at hslash'
          exact absurd hslash' (by decide)
        have hp' : p = join [parsed.path, makeAbsolute (toSlash env filePath)] := by
          have heq := Except.ok.inj (hp.symm.trans hparse)
          rw [if_neg hhere] at heq
          exact congrArg Parsed.path heq
        rw [hroot] at hbelow
        exact absurd (hbelow.1.mp (hp' ▸ hslash')) (by decide)
    · rw [← join_makeAbsolute hne]
      obtain ⟨-, hjoined | ⟨hslash, -⟩⟩ | ⟨hconfig', -⟩ := joinRootPath_cases hsame hfile
      · rw [hjoined] at hp
        exact staysLocal_of_parse hp hconfig
      · have hbelow' : Below (toSlash env remote) _ := below_join hnames fun hnil => absurd hnil hne
        obtain ⟨q, hq⟩ := head?_eq_some_iff.mp (hbelow'.1.mpr hslash)
        rw [hq]
        exact staysLocal_slash q
      · exact absurd hconfig hconfig'
  · rintro ⟨hslashed, hroot, hlocal⟩
    have hsame := parse_toSlash h hslashed
    by_cases hfile : filePath = []
    · rw [joinRootPath, if_pos hfile]
      exact ⟨_, hsame, .refl _⟩
    have hbelow : Below parsed.path (join [parsed.path, makeAbsolute (toSlash env filePath)]) :=
      below_join hnames fun hpath habs => hroot hpath (hhead.mp habs)
    have hslashed' := slashed_joinRootPath env remote filePath
    obtain ⟨rfl, hjoined⟩ | ⟨-, hparse⟩ := joinRootPath_cases hsame hfile
    · have hne := ne_nil_of_parse hsame
      have hstays := hlocal rfl hfile
      rw [← join_makeAbsolute hne] at hstays
      have hjoin : join [toSlash env remote, makeAbsolute (toSlash env filePath)] ≠ [] :=
        by simpa [join, hne] using clean_ne_nil _
      rcases hjoined with hjoined | ⟨hslash, hjoined⟩ <;> rw [hjoined] at hslashed' ⊢
      · exact ⟨_, parse_local hjoin hslashed' hstays, hbelow⟩
      · exact ⟨_, parse_local (cons_ne_nil _ _) hslashed' (staysLocal_slash _), below_network hbelow hslash⟩
    · refine ⟨_, hparse, ?_⟩
      split_ifs with hhere
      · rw [hhere] at hbelow
        obtain ⟨hrooted, names, hnames', hcleaned⟩ := hbelow
        exact ⟨iff_of_false (by decide) fun h => absurd (hrooted.mpr h) (by decide), names, hnames', hcleaned⟩
      · exact hbelow

end

/-- `remote:dir` and `../a:b`. -/
theorem joinRootPath_stays_remote :
    ∃ p, parse asciiEnv (joinRootPath asciiEnv (text ['r', ':', 'd']) (text "../a:b".toList)) =
    .ok ⟨text ['r'], text ['r'], p, none⟩ ∧ Below (text ['d']) p :=
  (joinRootPath_stays_iff asciiEnv
    (show parse asciiEnv (text ['r', ':', 'd']) = .ok ⟨text ['r'], text ['r'], text ['d'], none⟩ from rfl)).mpr
    ⟨nofun, by decide, fun hnil => absurd hnil (by decide)⟩

/-- The current directory and `r:a` are joined to the path `a` of the remote `r`. A local directory with a colon in its
name becomes a remote as well, and one with a comma can not be parsed with a colon behind it. The root of a remote and
`/a` are joined to an absolute path. And on Windows a backslash in a connection string becomes a slash. -/
theorem joinRootPath_leaves :
    (joinRootPath asciiEnv here (text ['r', ':', 'a']) = text ['r', ':', 'a'] ∧
      parse asciiEnv (text ['r', ':', 'a']) = .ok ⟨text ['r'], text ['r'], text ['a'], none⟩) ∧
    joinRootPath asciiEnv (text "./r:a".toList) (text ['b']) = text "r:a/b".toList ∧
    parse asciiEnv (joinRootPath asciiEnv (text ['r', ',', 's']) (text ['a', ':', 'b'])) = .error .badConfigParam ∧
    (joinRootPath asciiEnv (text ['r', ':']) (text ['/', 'a']) = text ['r', ':', '/', 'a'] ∧
      ¬Below [] (text ['/', 'a'])) ∧
    joinRootPath ⟨true, [], nofun⟩ (text ['r', ',', 'k', '=', '\\', ':']) (text ['a']) =
      text "r,k=/:a".toList := by
  refine ⟨⟨by decide +kernel, rfl⟩, by decide +kernel, rfl, ⟨by decide +kernel, fun h => ?_⟩, by decide +kernel⟩
  exact absurd (h.1.mp rfl) (by decide)

end ZClone.Fspath
