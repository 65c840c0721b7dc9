import ZClone.Encoder.Basic
import ZClone.Lib.Decimal
import ZClone.Lib.Path

/-!
# Transforming names (`lib/transform/transform.go`)

- `transformPathSegment` is one conversion of one segment. Tables and commands it gets from libraries are in `Env`.
- `transformPath` and `transformDir` apply a conversion to the segments of a path, and `path` a list of conversions.
-/

namespace ZClone.NameTransform

open Utf8 Decimal Paths

/-- Conversions, by the names of their constants. -/
inductive Algo where
  | none | toNFC | toNFD | toNFKC | toNFKD | findReplace | withPrefix | withSuffix | suffixKeepExtension | trimPrefix |
      trimSuffix
  | index | date | truncate | truncateKeepExtension | truncateBytes | truncateBytesKeepExtension | base64Encode |
      base64Decode
  | encoder | decoder | iso8859_1 | windows1252 | macintosh | charmap | lowercase | uppercase | titlecase | ascii |
      url | regex
  | command
  deriving DecidableEq

/-- Which part of a path a conversion is for. -/
inductive Tag where
  | file | dir | all
  deriving DecidableEq

structure Transform where
  key : Algo
  value : Text
  tag : Tag

inductive Error where
  | base64
  | wrongNumberOfValues
  | notANumber
  | badEncoding
  | badCharmap
  | regexSyntax
  /-- `regexp.MustCompile` panics; nothing catches it. -/
  | mustCompile
  | command
  | notImplemented
  | extensionTooLong
  | truncateUtf8
  | emptySegment
  | pathSeparator
  deriving DecidableEq

/-- A Go function that returns a string and an error: the string counts even if there is an error. -/
abbrev Result := Text × Option Error

/-- What the conversions get from libraries and from outside. -/
structure Env where
  nfc : Text → Text
  nfd : Text → Text
  nfkc : Text → Text
  nfkd : Text → Text
  base64Encode : Text → Text
  /-- What was decoded, and whether all of it was. -/
  base64Decode : Text → Text × Bool
  /-- `MultiEncoder.Set`. -/
  encoding : Text → Option Encoder.MultiEncoder
  /-- A rune through the tables of a character set and back. -/
  iso8859_1 : Char → Option Char
  windows1252 : Char → Option Char
  macintosh : Char → Option Char
  charmap : Text → Option (Char → Option Char)
  toLower : Text → Text
  toUpper : Text → Text
  toTitle : Text → Text
  queryEscape : Text → Text
  /-- `AppyTimeGlobs` at the current time. -/
  timeGlobs : Text → Text
  /-- `regexp.Compile`, with `ReplaceAllString` of what is compiled. -/
  compileRegex : Text → Option (Text → Text → Text)
  /-- The output of a command, if it succeeds. -/
  command : Text → Text → Option Text
  /-- Whether an extension is known to have a MIME type. -/
  mimeType : Text → Bool

section

variable (env : Env)

/-! ## Strings -/

/-- `strings.ReplaceAll` for a text that is not empty; `skip` bytes belong to the last match. -/
def replaceFrom (old new : Text) : Nat → Text → Text
  | _, [] => []
  | skip + 1, _ :: rest => replaceFrom old new skip rest
  | 0, b :: rest =>
    if old.isPrefixOf (b :: rest) then new ++ replaceFrom old new (old.length - 1) rest
      else b :: replaceFrom old new 0 rest

/-- `strings.ReplaceAll`: the empty text is found before every rune and at the end. -/
def replaceAll (s old new : Text) : Text :=
  if old = [] then (symbols s).flatMap (fun x => new ++ x.bytes) ++ new else replaceFrom old new 0 s

def trimPrefix (s start : Text) : Text := if start.isPrefixOf s then s.drop start.length else s

def trimSuffix (s stop : Text) : Text := if stop.isSuffixOf s then s.take (s.length - stop.length) else s

/-- `strings.Map` with a table; a rune that is not in it becomes an underscore. -/
def encodeWithReplacement (s : Text) (cmap : Char → Option Char) : Text :=
  (symbols s).flatMap fun x => encodeRune ((cmap x.rune).getD '_')

def toASCII (s : Text) : Text := (symbols s).flatMap fun x => if x.rune.toNat ≤ 127 then encodeRune x.rune else []

/-- The loop of `splitExtension`, once for every byte at most. -/
def splitExtensionLoop : Nat → Bool → Text → Text → Text × Text
  | 0, _, base, exts => (base, exts)
  | fuel + 1, first, base, exts =>
    let e := ext base
    if e = [] then (base, exts)
    -- look for the second and further extensions in the MIME types
    else if ¬first ∧ ¬env.mimeType e then (base, exts)
    else splitExtensionLoop fuel false (base.take (base.length - e.length)) (e ++ exts)

def splitExtension (remote : Text) : Text × Text := splitExtensionLoop env (remote.length + 1) true remote []

def truncateChars (s : Text) (max : Int) (keepExtension : Bool) : Result :=
  if max ≤ 0 then (s, none)
  else if (symbols s).length ≤ max then (s, none)
  else
    let (s, exts) := if keepExtension then splitExtension env s else (s, [])
    let keep := max - (symbols exts).length
    if keep ≤ 0 then ([], some .extensionTooLong)
    else (((symbols s).take keep.toNat).flatMap (fun x => encodeRune x.rune) ++ exts, none)

/-- The loop of `truncateBytes`: the longest beginning that is UTF-8 with the extension. -/
def truncateLoop (s exts : Text) (max : Int) : Nat → Result
  | 0 => ([], some .truncateUtf8)
  | i + 1 =>
    let b := s.take (i + 1) ++ exts
    if (b.length : Int) ≤ max ∧ (symbols b).all (fun x => x matches .char _) then (b, none)
      else truncateLoop s exts max i

def truncateBytes (s : Text) (max : Int) (keepExtension : Bool) : Result :=
  if max ≤ 0 then (s, none)
  else if s.length ≤ max then (s, none)
  else
    let (s, exts) := if keepExtension then splitExtension env s else (s, [])
    truncateLoop s exts max (max - exts.length).toNat

/-! ## Segments -/

/-- `.DS_Store`. -/
def dsStore : Text := bytes (chars ['.', 'D', 'S', '_', 'S', 't', 'o', 'r', 'e'])

/-- A conversion with a limit as its value. -/
def withLimit (s value : Text) (f : Text → Int → Result) : Result :=
  match atoi value with
  | none => (s, some .notANumber)
  | some max => f s max

def transformPathSegment (s : Text) (t : Transform) : Result :=
  match t.key with
  | .none => (s, none)
  | .toNFC => (env.nfc s, none)
  | .toNFD => (env.nfd s, none)
  | .toNFKC => (env.nfkc s, none)
  | .toNFKD => (env.nfkd s, none)
  | .base64Encode => (env.base64Encode s, none)
  | .base64Decode =>
    if s = dsStore then (s, none)
    else
      let (b, ok) := env.base64Decode s
      (b, if ok then none else some .base64)
  | .findReplace =>
    match t.value.splitOn 0x3A with
    | [old, new] => (replaceAll s old new, none)
    | _ => (s, some .wrongNumberOfValues)
  | .withPrefix => (t.value ++ s, none)
  | .withSuffix => (s ++ t.value, none)
  | .suffixKeepExtension =>
    let (base, exts) := splitExtension env s
    (base ++ t.value ++ exts, none)
  | .trimPrefix => (trimPrefix s t.value, none)
  | .trimSuffix => (trimSuffix s t.value, none)
  | .truncate => withLimit s t.value fun s max => truncateChars env s max false
  | .truncateKeepExtension => withLimit s t.value fun s max => truncateChars env s max true
  | .truncateBytes => withLimit s t.value fun s max => truncateBytes env s max false
  | .truncateBytesKeepExtension => withLimit s t.value fun s max => truncateBytes env s max true
  | .encoder =>
    match env.encoding t.value with
    | none => (s, some .badEncoding)
    | some enc => (Encoder.encode enc s, none)
  | .decoder =>
    match env.encoding t.value with
    | none => (s, some .badEncoding)
    | some enc => (Encoder.decode enc s, none)
  | .iso8859_1 => (encodeWithReplacement s env.iso8859_1, none)
  | .windows1252 => (encodeWithReplacement s env.windows1252, none)
  | .macintosh => (encodeWithReplacement s env.macintosh, none)
  | .charmap =>
    match env.charmap t.value with
    | none => (s, some .badCharmap)
    | some cmap => (encodeWithReplacement s cmap, none)
  | .lowercase => (env.toLower s, none)
  | .uppercase => (env.toUpper s, none)
  | .titlecase => (env.toTitle s, none)
  | .ascii => (toASCII s, none)
  | .url => (env.queryEscape s, none)
  | .date => (s ++ env.timeGlobs t.value, none)
  | .regex =>
    match t.value.splitOn 0x2F with
    | [old, new] =>
      match env.compileRegex old with
      | none => (s, some .mustCompile)
      | some replaceAllString => (replaceAllString s new, none)
    | _ => (s, some .regexSyntax)
  | .command =>
    match env.command t.value s with
    | none => (s, some .command)
    | some out => (out, none)
  | .index => ([], some .notImplemented)

/-- `unicode.IsSpace`. -/
def isSpace (c : Char) : Bool :=
  c.toNat ∈ [0x09, 0x0A, 0x0B, 0x0C, 0x0D, 0x20, 0x85, 0xA0, 0x1680, 0x2028, 0x2029, 0x202F, 0x205F, 0x3000] ||
    (0x2000 ≤ c.toNat && c.toNat ≤ 0x200A)

def validateSegment (s : Text) : Option Error :=
  if (symbols s).all (fun x => isSpace x.rune) then some .emptySegment
  else if Paths.slash ∈ s then some .pathSeparator
  else none

/-! ## Paths -/

/-- `\`. -/
def backslash : Text := [0x5C]

/-- The loop of `transformPath`: the first error ends it. -/
def transformSegments (t : Transform) : List Text → Except Error (List Text)
  | [] => .ok []
  | seg :: rest =>
    match transformPathSegment env seg t with
    | (_, some e) => .error e
    | (convSeg, none) =>
      match validateSegment convSeg with
      | some e => .error e
      | none =>
        match transformSegments t rest with
        | .error e => .error e
        | .ok convRest => .ok (convSeg :: convRest)

def transformPath (s : Text) (t : Transform) (baseOnly : Bool) : Result :=
  if s = [] ∨ s = [Paths.slash] ∨ s = backslash ∨ s = here then ([], none)
  else if baseOnly then
    let (transformedBase, err) := transformPathSegment env (base s) t
    if err = some .mustCompile then ([], err)
    else match validateSegment transformedBase with
    | some e => ([], some e)
    | none => (join [dir s, transformedBase], err)
  else
    match transformSegments env t (segments s) with
    | .error e => ([], some e)
    -- the slice is made with a length, so the segments come behind as many empty strings
    | .ok transformed => (join (List.replicate (segments s).length [] ++ transformed), none)

/-- Transform all but the last segment. -/
def transformDir (s : Text) (t : Transform) : Result :=
  match transformPath env (dir s) t false with
  | (_, some e) => ([], some e)
  | (dirPath, none) => (join [dirPath, base s], none)

/-- One conversion of `Path`; an error is logged, and the string used. A panic has no result. -/
def step (isDir : Bool) (s : Text) (t : Transform) : Option Text :=
  if isDir ∧ t.tag = .file then some s
  else
    let result := if t.tag = .dir ∧ ¬isDir then transformDir env s t
      else transformPath env s t (!isDir && decide (t.tag = .file))
    if result.2 = some .mustCompile then none else some result.1

/-- `Path`, with the list of conversions. -/
def path (opt : List Transform) (s : Text) (isDir : Bool) : Option Text :=
  (opt.foldlM (step env isDir) s).map fun new => if s.count slash ≠ new.count slash then s else new

end

end ZClone.NameTransform
