import Mathlib
import ZClone.Lib.Regexp
import ZClone.Lib.Utf8

/-!
# Connection strings (`fs/fspath/path.go`, `fs/config/configmap/configmap.go`)

- `Simple` is `configmap.Simple`, kept in the order in which it is printed.
- `parse` is the state machine of `Parse`, one `turn` for each rune. A slice of the path is the bytes passed since
  `prev`.
- `splitFs` and `split` cut a remote into its parts.
-/

namespace ZClone.Fspath

open Utf8 List

/-- A Go string. -/
abbrev Text := List UInt8

def text (s : List Char) : Text := bytes (chars s)

/-! ## `configmap.Simple` -/

/-- A map from names of parameters to values. -/
structure Simple where
  entries : List (Text × Text)
  sorted : entries.Pairwise fun a b => a.1 < b.1

def Simple.empty : Simple := ⟨[], .nil⟩

def setEntry (key value : Text) : List (Text × Text) → List (Text × Text)
  | [] => [(key, value)]
  | entry :: rest =>
    if key < entry.1 then (key, value) :: entry :: rest
    else if key = entry.1 then (key, value) :: rest
    else entry :: setEntry key value rest

variable {entries : List (Text × Text)}

theorem mem_setEntry {key value : Text} {e : Text × Text} (h : e ∈ setEntry key value entries) :
    e = (key, value) ∨ e ∈ entries := by
  induction entries with
  | nil => exact .inl (mem_singleton.mp h)
  | cons entry rest ih =>
    rw [setEntry] at h
    split_ifs at h
    · exact mem_cons.mp h
    · exact (mem_cons.mp h).imp_right (mem_cons_of_mem _)
    · obtain rfl | h := mem_cons.mp h
      · exact .inr mem_cons_self
      · exact (ih h).imp_right (mem_cons_of_mem _)

theorem sorted_setEntry (key value : Text) (h : entries.Pairwise fun a b => a.1 < b.1) :
    (setEntry key value entries).Pairwise fun a b => a.1 < b.1 := by
  induction entries with
  | nil => exact pairwise_singleton _ _
  | cons entry rest ih =>
    obtain ⟨hentry, hrest⟩ := pairwise_cons.mp h
    rw [setEntry]
    split_ifs with hlt heq
    · refine pairwise_cons.mpr ⟨fun e he => ?_, h⟩
      obtain rfl | he := mem_cons.mp he
      · exact hlt
      · exact List.lt_trans hlt (hentry e he)
    · subst heq
      exact pairwise_cons.mpr ⟨hentry, hrest⟩
    · refine pairwise_cons.mpr ⟨fun e he => ?_, ih hrest⟩
      obtain rfl | he := mem_setEntry he
      · exact (List.le_iff_lt_or_eq.mp (List.not_lt.mp hlt)).resolve_right (Ne.symm heq)
      · exact hentry e he

def Simple.set (c : Simple) (key value : Text) : Simple :=
  ⟨setEntry key value c.entries, sorted_setEntry key value c.sorted⟩

/-- The quote of printed values. -/
def singleQuote : Char := .ofNat 0x27

def doubleQuote : Char := .ofNat 0x22

/-- A value between quotes, with quotes in it doubled. -/
def quoted (value : Text) : Text :=
  text [singleQuote] ++
    (symbols value).flatMap (fun x => encodeRune x.rune ++ if x.rune = singleQuote then encodeRune x.rune else []) ++
      text [singleQuote]

def printEntry (human : Bool) (entry : Text × Text) : Text :=
  if human ∧ entry.2 = text ['t', 'r', 'u', 'e'] then entry.1
  else
    entry.1 ++ text ['='] ++
      if ¬human ∨ ∃ c ∈ [singleQuote, doubleQuote, ':', '=', ','], .char c ∈ symbols entry.2 then quoted entry.2
        else entry.2

/-- `string`, for `Human` and `String`. -/
def Simple.string (c : Simple) (human : Bool) : Text :=
  c.entries.foldl (fun out entry => (if out = [] then [] else out ++ text [',']) ++ printEntry human entry) []

/-! ## Names -/

/-- What the package is compiled for: the separator of directories and the drive letters depend on `windows`. The
letters and numbers of Unicode (the classes L and N) outside ASCII are given by ranges. -/
structure Env where
  windows : Bool
  unicode : List (Char × Char)
  unicode_ge : ∀ r ∈ unicode, 0x80 ≤ r.1.toNat

inductive Error where
  | invalidCharacters
  | cantBeEmpty
  | badConfigParam
  | emptyConfigParam
  | configNameEmpty
  | configName
  | param
  | value
  | quotedValue
  | afterQuote
  deriving DecidableEq

section

variable (env : Env)

/-- The characters of names, without the space and the dash. -/
def wordRanges : List (Char × Char) :=
  [('0', '9'), ('A', 'Z'), ('_', '_'), ('a', 'z')] ++ env.unicode ++ [('.', '.'), ('+', '+'), ('@', '@')]

def plus (s : Regexp.CharSet) : Regexp.Re := .seq (.set s) (.star (.set s))

def configNameRe : Regexp.Re :=
  .seq (plus ⟨false, wordRanges env⟩)
    (.star (.seq (plus ⟨false, [(' ', ' '), ('-', '-')]⟩) (plus ⟨false, wordRanges env ++ [('-', '-')]⟩)))

def remoteNameMatcher : Regexp.Re :=
  .seq .start (.seq (.alt (Regexp.literal ':') .eps)
    (.seq (configNameRe env) (.alt (.seq (Regexp.literal ':') .stop) (Regexp.literal ','))))

def checkRemoteName (remoteName : Text) : Except Error Unit :=
  if remoteName = text [':'] ∨ remoteName = text [':', ':'] then .error .configNameEmpty
  else if (remoteNameMatcher env).matchString ((symbols remoteName).map Symbol.rune) then .ok ()
  else .error .invalidCharacters

/-- `filepath.ToSlash`. -/
def toSlash (path : Text) : Text := if env.windows then path.map fun b => if b = 0x5C then 0x2F else b else path

/-- `driveletter.IsDriveLetter`. -/
def isDriveLetter (name : Text) : Bool :=
  env.windows && match name with
    | [c] => (0x61 ≤ c && c ≤ 0x7A) || (0x41 ≤ c && c ≤ 0x5A)
    | _ => false

def isConfigParam (c : Char) : Bool :=
  ('a' ≤ c && c ≤ 'z') || ('A' ≤ c && c ≤ 'Z') || ('0' ≤ c && c ≤ '9') || c = '_' || c = '.'

/-! ## `Parse` -/

structure Parsed where
  name : Text
  configString : Text
  path : Text
  config : Option Simple

inductive State where
  | configName | param | value | quotedValue | afterQuote
  deriving DecidableEq

/-- The error for a path that ends in this state. -/
def State.error : State → Error
  | .configName => .configName
  | .param => .param
  | .value => .value
  | .quotedValue => .quotedValue
  | .afterQuote => .afterQuote

/-- The variables of the loop: `before` is `path[:i]` and `part` is `path[prev:i]`. -/
structure Scan where
  state : State
  before : Text
  part : Text
  name : Text
  config : Option Simple
  quote : Char
  param : Text
  doubled : Bool

def Scan.start : Scan := ⟨.configName, [], [], [], none, '\x00', [], false⟩

/-- The loop goes on, returns, or ends in `stateDone`. -/
inductive Turn where
  | next (s : Scan)
  | leave (result : Except Error Parsed)
  | done (s : Scan)

/-- `parsed.Config[param] = value`. -/
def Scan.store (s : Scan) (value : Text) : Scan := { s with config := s.config.map fun c => c.set s.param value }

/-- The loop passes some bytes. -/
def Scan.pass (s : Scan) (passed : Text) : Scan := { s with before := s.before ++ passed, part := s.part ++ passed }

/-- `strings.ReplaceAll` of two quotes by one. -/
def undouble (quote : UInt8) : Text → Text
  | [] => []
  | [b] => [b]
  | a :: b :: rest => if a = quote ∧ b = quote then quote :: undouble quote rest else a :: undouble quote (b :: rest)

def localPath (path : Text) : Parsed := ⟨[], [], toSlash env path, none⟩

/-- Parses `remote,`. -/
def turnConfigName (path : Text) (s : Scan) (x : Symbol) : Turn :=
  if s.before = [] ∧ x.rune = ':' then .next (s.pass x.bytes)
  else if x.rune = '/' ∨ x.rune = '\\' then
    -- a path separator: a local path, but not behind a colon at the beginning
    if path.head? = some 0x3A then .leave (.error .invalidCharacters) else .leave (.ok (localPath env path))
  else if x.rune = ':' ∨ x.rune = ',' then
    match checkRemoteName env (s.before ++ text [':']) with
    | .error e => .leave (.error e)
    | .ok () =>
      if x.rune = ':' then
        if isDriveLetter env s.before then .leave (.ok (localPath env path)) else .done { s with name := s.before }
      else .next { s.pass x.bytes with state := .param, name := s.before, config := some .empty, part := [] }
  else .next (s.pass x.bytes)

section

variable (s : Scan) (x : Symbol)

/-- Behind a value: `prev = i + 1`, and `stateDone` or `stateParam`. -/
def Scan.endValue : Turn :=
  if x.rune = ':' then .done s else .next { s.pass x.bytes with state := .param, part := [] }

/-- Parses `param=`. -/
def turnParam : Turn :=
  if x.rune = ':' ∨ x.rune = ',' ∨ x.rune = '=' then
    if s.part = [] then .leave (.error .emptyConfigParam)
    else if x.rune = '=' then .next { s.pass x.bytes with state := .value, param := s.part, part := [] }
    else Scan.endValue (Scan.store { s with param := s.part } (text ['t', 'r', 'u', 'e'])) x
  else if isConfigParam x.rune then .next (s.pass x.bytes)
  else .leave (.error .badConfigParam)

/-- Parses a value. -/
def turnValue : Turn :=
  if x.rune = singleQuote ∨ x.rune = doubleQuote then
    if s.part = [] then
      .next { s.pass x.bytes with state := .quotedValue, quote := x.rune, part := [], doubled := false }
    else .next (s.pass x.bytes)
  else if x.rune = ':' ∨ x.rune = ',' then Scan.endValue (s.store s.part) x
  else .next (s.pass x.bytes)

/-- Parses a value behind a quote. -/
def turnQuotedValue : Turn :=
  if x.rune = s.quote then .next { s.pass x.bytes with state := .afterQuote } else .next (s.pass x.bytes)

/-- Parses `:` or `,` or a quote behind a quote. -/
def turnAfterQuote : Turn :=
  if x.rune = ':' ∨ x.rune = ',' then
    -- the last byte passed is the closing quote
    let value := s.part.dropLast
    Scan.endValue (s.store (if s.doubled then undouble (.ofNat s.quote.toNat) value else value)) x
  else if x.rune = s.quote then .next { s.pass x.bytes with state := .quotedValue, doubled := true }
  else .leave (.error .afterQuote)

end

/-- One turn of the loop. -/
def turn (path : Text) (s : Scan) (x : Symbol) : Turn :=
  match s.state with
  | .configName => turnConfigName env path s x
  | .param => turnParam s x
  | .value => turnValue s x
  | .quotedValue => turnQuotedValue s x
  | .afterQuote => turnAfterQuote s x

def loop (path : Text) : Scan → List Symbol → Except Error Parsed
  | s, [] => .error s.state.error
  | s, x :: rest =>
    match turn env path s x with
    | .next s' => loop path s' rest
    | .leave result => result
    | .done s' => .ok ⟨s'.name, s'.before, toSlash env (bytes rest), s'.config⟩

def parse (path : Text) : Except Error Parsed :=
  if path = [] then .error .cantBeEmpty
  else if .char ':' ∉ symbols path then .ok (localPath env path)
  else loop env path .start (symbols path)

def splitFs (remote : Text) : Except Error (Text × Text) :=
  match parse env remote with
  | .error e => .error e
  | .ok parsed => .ok (if parsed.configString = [] then [] else parsed.configString ++ text [':'], parsed.path)

def split (remote : Text) : Except Error (Text × Text) :=
  match splitFs env remote with
  | .error e => .error e
  | .ok (remoteName, remotePath) =>
    -- `path.Split` cuts behind the last slash
    .ok (remoteName ++ remotePath.rdropWhile (· ≠ 0x2F), remotePath.rtakeWhile (· ≠ 0x2F))

end

end ZClone.Fspath
