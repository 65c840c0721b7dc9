import Mathlib.Data.List.Basic

/-!
# Globs (`fs/filter/glob.go`)

`globToRegexp` turns an rsync style glob into the text of a regular expression, one character at a time;
`globPathToRegexp` is what a filter compiles for a glob of paths.
-/

namespace ZClone.Filter

/-- A text: globs, expressions and paths. -/
abbrev Text := List Char

/-- The errors of `globToRegexp`. -/
inductive GlobError where
  | tooManyStars (glob : Text)
  | mismatchedClosingBracket (glob : Text)
  | mismatchedBrackets (glob : Text)
  | mismatchedBraces (glob : Text)
  | mismatchedRegexp (glob : Text)
  | badPattern (glob regexp : Text)
  deriving DecidableEq

/-- The format of an error's text, and the texts that it quotes. -/
def GlobError.errorf : GlobError → String × List Text
  | .tooManyStars glob => ("too many stars in %q", [glob])
  | .mismatchedClosingBracket glob => ("mismatched ']' in glob %q", [glob])
  | .mismatchedBrackets glob => ("mismatched '[' and ']' in glob %q", [glob])
  | .mismatchedBraces glob => ("mismatched '\x7b' and '\x7d' in glob %q", [glob])
  | .mismatchedRegexp glob => ("mismatched '\x7b\x7b' and '\x7d\x7d' in glob %q", [glob])
  | .badPattern glob regexp => ("bad glob pattern %q (regexp %q)", [glob, regexp])

/-- The variables of the loop in `globToRegexp`. -/
structure GlobState where
  re : Text
  consecutiveStars : Nat := 0
  braceDepth : Nat := 0
  inBrackets : Nat := 0
  slashed : Bool := false
  /-- Inside a raw expression in double braces. -/
  inRegexp : Bool := false
  /-- Behind the double brace that closes one, waiting for more braces. -/
  inRegexpEnd : Bool := false
  next : Char := '\x00'

def openBrace : Char := '\x7b'

def closeBrace : Char := '\x7d'

namespace GlobState

def write (st : GlobState) (text : Text) : GlobState := { st with re := st.re ++ text }

def overwriteLastChar (st : GlobState) (c : Char) : GlobState := { st with re := st.re.dropLast ++ [c] }

/-- A character inside brackets is copied. -/
def bracketed (st : GlobState) (c : Char) : GlobState :=
  let st := st.write [c]
  if c = '[' then { st with inBrackets := st.inBrackets + 1 }
  else if c = ']' then { st with inBrackets := st.inBrackets - 1 }
  else st

section

variable (glob : Text) (pathMode : Bool) (st : GlobState)

/-- `insertStars`: one star stays within a path segment, two do not. -/
def insertStars : Except GlobError GlobState :=
  match st.consecutiveStars, pathMode with
  | 0, _ => .ok st
  | 1, true => .ok { st.write "[^/]*".toList with consecutiveStars := 0 }
  | 2, true => .ok { st.write ".*".toList with consecutiveStars := 0 }
  | 1, false => .ok { st.write ".*".toList with consecutiveStars := 0 }
  | _, _ => .error (.tooManyStars glob)

/-- The `switch` of the loop; `last` is the character before `c`. -/
def plain (last c : Char) : Except GlobError GlobState :=
  if c = '\\' then .ok { st.write [c] with slashed := true }
  else if c = '*' then .ok { st with consecutiveStars := st.consecutiveStars + 1 }
  else if c = '?' then .ok (st.write (if pathMode then "[^/]".toList else ".".toList))
  else if c = '[' then .ok { st.write [c] with inBrackets := st.inBrackets + 1 }
  else if c = ']' then .error (.mismatchedClosingBracket glob)
  else if c = openBrace then
    -- two open braces start a raw expression in the group the first one opened
    if 0 < st.braceDepth ∧ last = openBrace then .ok { st with inRegexp := true, braceDepth := st.braceDepth - 1 }
    else .ok { st.write ['('] with braceDepth := st.braceDepth + 1 }
  else if c = closeBrace then
    if st.braceDepth = 0 then .error (.mismatchedBraces glob)
    else .ok { st.write [')'] with braceDepth := st.braceDepth - 1 }
  else if c = ',' then .ok (st.write (if 0 < st.braceDepth then ['|'] else [c]))
  else if c ∈ ['.', '+', '(', ')', '|', '^', '$'] then .ok (st.write ['\\', c])
  else .ok (st.write [c])

/-- One character of the glob. -/
def step (c : Char) : Except GlobError GlobState :=
  let last := st.next
  let st := { st with next := c }
  if st.slashed then .ok { st.write [c] with slashed := false }
  else if st.inRegexpEnd ∧ c = closeBrace then .ok ((st.overwriteLastChar closeBrace).write [')'])
  else
    let st := { st with inRegexpEnd := false }
    if st.inRegexp then
      if c = closeBrace ∧ last = closeBrace then
        .ok { st.overwriteLastChar ')' with inRegexp := false, inRegexpEnd := true }
      else .ok (st.write [c])
    else
      match if c = '*' then .ok st else st.insertStars glob pathMode with
      | .error err => .error err
      | .ok st => if 0 < st.inBrackets then .ok (st.bracketed c) else st.plain glob pathMode last c

end

end GlobState

/-- The text of `globToRegexp` before it is compiled. -/
def globToRegexp (glob : Text) (pathMode addAnchors ignoreCase : Bool) : Except GlobError Text := do
  let flag := if ignoreCase then "(?i)".toList else []
  let anchored := pathMode && glob.head? = some '/'
  let anchor :=
    if addAnchors then (if pathMode then (if anchored then ['^'] else "(^|/)".toList) else ['^']) else []
  let glob := if addAnchors && anchored then glob.tail else glob
  let st ← glob.foldlM (GlobState.step glob pathMode) { re := flag ++ anchor }
  let st ← st.insertStars glob pathMode
  if 0 < st.inBrackets then throw (.mismatchedBrackets glob)
  if st.braceDepth ≠ 0 then throw (.mismatchedBraces glob)
  if st.inRegexp then throw (.mismatchedRegexp glob)
  pure (if addAnchors then st.re ++ ['$'] else st.re)

/-- What filters use of Go's `regexp`: which texts compile, and the search for one in another. -/
structure Engine where
  compiles : Text → Bool
  matchString : Text → Text → Bool

/-- `GlobPathToRegexp`; the error names the glob without the slash in front. -/
def globPathToRegexp (e : Engine) (glob : Text) (ignoreCase : Bool) : Except GlobError Text := do
  let re ← globToRegexp glob true true ignoreCase
  if e.compiles re then pure re else throw (.badPattern (if glob.head? = some '/' then glob.tail else glob) re)

end ZClone.Filter
