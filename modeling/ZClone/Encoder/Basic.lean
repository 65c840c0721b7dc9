import ZClone.Lib.Hex
import ZClone.Lib.Utf8

/-!
# Encoding file names (`lib/encoder/encoder.go`)

Names are byte strings. Go reads them rune by rune, and a byte that belongs to no rune as an error of width one; here
they are cut into symbols first.

- `Rule` is one switch of `Encode` and `Decode`: a flag and the characters it replaces. The rules for whole names are
  `dotNames`, those for the first and the last character `leftRules` and `rightRules`, those for all others `rules`.
- `encode` and `decode` follow the source, with the search for the first rune that needs work.
-/

namespace ZClone.Encoder

open Utf8

/-- The flags of a `MultiEncoder`, by their bits. -/
inductive Flag where
  | raw | slash | ltGt | doubleQuote | singleQuote | backQuote | dollar | colon | question | asterisk | pipe | hash
  | percent | backSlash | crLf | del | ctl | leftSpace | leftPeriod | leftTilde | leftCrLfHtVt | rightSpace |
      rightPeriod
  | rightCrLfHtVt | invalidUtf8 | dot | squareBracket | semicolon | exclamation
  deriving DecidableEq

def Flag.bit (flag : Flag) : Nat := flag.ctorIdx

/-- A set of flags. -/
abbrev MultiEncoder := BitVec 64

def has (mask : MultiEncoder) (flag : Flag) : Bool := mask.getLsbD flag.bit

def encodeRaw : MultiEncoder := 1

def quoteRune : Char := '‛'

/-- The symbol for NUL. -/
def symbolNul : Char := '␀'

/-- A flag and the characters it replaces, each with its replacement. -/
structure Rule where
  flag : Flag
  pairs : List (Char × Char)

/-- The rules for characters anywhere, in the order of the source. Quotes are given by their codes. -/
def rules : List Rule :=
  [⟨.asterisk, [('*', '＊')]⟩, ⟨.ltGt, [('<', '＜'), ('>', '＞')]⟩, ⟨.squareBracket, [('[', '［'), (']', '］')]⟩,
    ⟨.semicolon, [(';', '；')]⟩, ⟨.exclamation, [('!', '！')]⟩, ⟨.question, [('?', '？')]⟩, ⟨.colon, [(':', '：')]⟩,
    ⟨.pipe, [('|', '｜')]⟩, ⟨.doubleQuote, [(.ofNat 0x22, '＂')]⟩, ⟨.singleQuote, [(.ofNat 0x27, '＇')]⟩,
    ⟨.backQuote, [(.ofNat 0x60, '｀')]⟩, ⟨.dollar, [('$', '＄')]⟩, ⟨.slash, [('/', '／')]⟩, ⟨.backSlash, [('\\', '＼')]⟩,
    ⟨.crLf, [('\x0d', '␍'), ('\x0a', '␊')]⟩, ⟨.hash, [('#', '＃')]⟩, ⟨.percent, [('%', '％')]⟩, ⟨.del, [('\x7f', '␡')]⟩,
    ⟨.ctl, (List.range 0x1F).map fun i => (.ofNat (i + 1), .ofNat (symbolNul.toNat + (i + 1)))⟩]

/-- The rules for the first character. -/
def leftRules : List Rule :=
  [⟨.leftSpace, [(' ', '␠')]⟩, ⟨.leftPeriod, [('.', '．')]⟩, ⟨.leftTilde, [('~', '～')]⟩,
    ⟨.leftCrLfHtVt, [('\x09', '␉'), ('\x0a', '␊'), ('\x0b', '␋'), ('\x0d', '␍')]⟩]

/-- The rules for the last character. -/
def rightRules : List Rule :=
  [⟨.rightSpace, [(' ', '␠')]⟩, ⟨.rightPeriod, [('.', '．')]⟩,
    ⟨.rightCrLfHtVt, [('\x09', '␉'), ('\x0a', '␊'), ('\x0b', '␋'), ('\x0d', '␍')]⟩]

/-- The whole names that `EncodeDot` replaces. -/
def dotNames : List (List Char × List Char) :=
  [(['.'], ['．']), (['.', '.'], ['．', '．']), (['．'], [quoteRune, '．']),
    (['．', '．'], [quoteRune, '．', quoteRune, '．'])]

/-- The characters that the rules with an enabled flag replace. -/
def enabled (mask : MultiEncoder) (rules : List Rule) : List (Char × Char) :=
  (rules.filter fun rule => has mask rule.flag).flatMap Rule.pairs

def replacement (pairs : List (Char × Char)) (c : Char) : Option Char := (pairs.find? (·.1 = c)).map Prod.snd

def original (pairs : List (Char × Char)) (c : Char) : Option Char := (pairs.find? (·.2 = c)).map Prod.fst

/-! ## Encode -/

def hexDigit (n : Nat) : Char := .ofNat (Hex.code 0x41 n)

/-- `appendQuotedBytes` for one byte. -/
def quotedByte (b : UInt8) : List Char := [quoteRune, hexDigit (b.toNat / 16), hexDigit (b.toNat % 16)]

/-- A character under a list of rules: replaced, quoted if it looks like a replacement, or left to others. -/
def encodeBy (pairs : List (Char × Char)) (c : Char) : Option (List Char) :=
  match replacement pairs c with
  | some r => some [r]
  | none => (original pairs c).map fun _ => [quoteRune, c]

/-- A symbol at an edge of the name. -/
def encodeEdge (pairs : List (Char × Char)) : Symbol → Option (List Char)
  | .char c => encodeBy pairs c
  | .stray _ => none

section

variable (mask : MultiEncoder)

/-- The loop of `Encode` for one rune. -/
def encodeSymbol : Symbol → List Symbol
  | .stray b => if has mask .invalidUtf8 then chars (quotedByte b) else [.stray b]
  | .char c =>
    if c = '\x00' then chars [symbolNul]
    else if c = symbolNul ∨ c = quoteRune then chars [quoteRune, c]
    else chars ((encodeBy (enabled mask rules) c).getD [c])

/-- The runes for which `Encode` cannot return its argument at once. -/
def needsEncoding : Symbol → Bool
  | .stray _ => true
  | .char c => c = '\x00' || c = symbolNul || c = quoteRune || c = '�' || (encodeBy (enabled mask rules) c).isSome

/-- The replacement of the first symbol, and what is left. -/
def encodeLeft (xs : List Symbol) : List Char × List Symbol :=
  match xs with
  | [] => ([], [])
  | x :: rest =>
    match encodeEdge (enabled mask leftRules) x with
    | some out => (out, rest)
    | none => ([], x :: rest)

/-- What is left, and the replacement of the last symbol. -/
def encodeRight (xs : List Symbol) : List Symbol × List Char :=
  match xs.getLast?.bind (encodeEdge (enabled mask rightRules)) with
  | some out => (xs.dropLast, out)
  | none => (xs, [])

/-- `Encode` behind the names of dots. -/
def encodeName (xs : List Symbol) : List Symbol :=
  let left := encodeLeft mask xs
  let right := encodeRight mask left.2
  if left.1 = [] ∧ right.2 = [] then
    -- find the first rune which needs to be replaced
    match right.1.findIdx? (needsEncoding mask) with
    | none => right.1
    | some index => right.1.take index ++ (right.1.drop index).flatMap (encodeSymbol mask)
  else chars left.1 ++ right.1.flatMap (encodeSymbol mask) ++ chars right.2

def encode (s : List UInt8) : List UInt8 :=
  if mask = encodeRaw then s
  else if s = [] then []
  else
    match if has mask .dot then dotNames.find? (fun name => chars name.1 = symbols s) else none with
    | some name => bytes (chars name.2)
    | none => bytes (encodeName mask (symbols s))

end

/-! ## Decode -/

def hexValue (b : UInt8) : Option Nat :=
  let n := b.toNat
  if 0x30 ≤ n ∧ n ≤ 0x39 then some (n - 0x30)
  else if 0x41 ≤ n ∧ n ≤ 0x46 then some (n - 0x41 + 10)
  else if 0x61 ≤ n ∧ n ≤ 0x66 then some (n - 0x61 + 10)
  else none

/-- `appendUnquotedByte`. -/
def unquotedByte : List UInt8 → Option UInt8
  | high :: low :: _ =>
    match hexValue high, hexValue low with
    | some h, some l => some (.ofNat (16 * h + l))
    | _, _ => none
  | _ => none

/-- The loop of `Decode`; `unquote` is set behind a quote. -/
def decodeLoop (mask : MultiEncoder) : Bool → List Symbol → List UInt8
  | unquote, [] => if unquote then encodeRune quoteRune else []
  | unquote, .stray b :: rest =>
    match if unquote && has mask .invalidUtf8 then unquotedByte (bytes (.stray b :: rest)) else none with
    | some u =>
      match rest with
      | [] => [u]
      | _ :: rest => u :: decodeLoop mask false rest
    | none => (if unquote then encodeRune quoteRune else []) ++ b :: decodeLoop mask false rest
  | unquote, .char c :: rest =>
    if c = symbolNul then encodeRune (if unquote then c else '\x00') ++ decodeLoop mask false rest
    else if c = quoteRune then
      if unquote then encodeRune c ++ decodeLoop mask false rest else decodeLoop mask true rest
    else
      match original (enabled mask rules) c with
      | some plain => encodeRune (if unquote then c else plain) ++ decodeLoop mask false rest
      | none =>
        match if unquote && has mask .invalidUtf8 then unquotedByte (bytes (.char c :: rest)) else none with
        | some u =>
          match rest with
          | [] => [u]
          | _ :: rest => u :: decodeLoop mask false rest
        | none => (if unquote then encodeRune quoteRune else []) ++ encodeRune c ++ decodeLoop mask false rest

section

variable (mask : MultiEncoder)

/-- The runes for which `Decode` cannot return its argument at once. -/
def needsDecoding : Symbol → Bool
  | .stray _ => false
  | .char c => c = symbolNul || c = quoteRune || (original (enabled mask rules) c).isSome

/-- The character a replaced or quoted first one stands for, and what is left. -/
def decodeLeft (xs : List Symbol) : List Char × List Symbol :=
  match xs with
  | .char c :: rest =>
    match original (enabled mask leftRules) c with
    | some plain => ([plain], rest)
    | none =>
      match rest with
      | .char d :: rest' =>
        if c = quoteRune ∧ (original (enabled mask leftRules) d).isSome then ([d], rest') else ([], xs)
      | _ => ([], xs)
  | _ => ([], xs)

/-- What is left, and the character a replaced or quoted last one stands for. -/
def decodeRight (xs : List Symbol) : List Symbol × List Char :=
  match xs.getLast? with
  | some (.char c) =>
    match original (enabled mask rightRules) c with
    | some plain =>
      if xs.dropLast.getLast? = some (.char quoteRune) then (xs.dropLast.dropLast, [c]) else (xs.dropLast, [plain])
    | none => (xs, [])
  | _ => (xs, [])

/-- `Decode` behind the names of dots. -/
def decodeName (xs : List Symbol) : List UInt8 :=
  let left := decodeLeft mask xs
  let right := decodeRight mask left.2
  if left.1 = [] ∧ right.2 = [] then
    match right.1.findIdx? (needsDecoding mask) with
    | none => bytes right.1
    | some index => bytes (right.1.take index) ++ decodeLoop mask false (right.1.drop index)
  else bytes (chars left.1) ++ decodeLoop mask false right.1 ++ bytes (chars right.2)

def decode (s : List UInt8) : List UInt8 :=
  if mask = encodeRaw then s
  else
    match if has mask .dot then dotNames.find? (fun name => chars name.2 = symbols s) else none with
    | some name => bytes (chars name.1)
    | none => decodeName mask (symbols s)

end

end ZClone.Encoder
