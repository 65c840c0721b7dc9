import ZClone.Lib.Hex
import ZClone.Lib.Utf8

/-!
# Quoted text

Go's `strconv.Unquote` for double quotes, on byte strings.
-/

namespace ZClone.Quote

open Utf8

/-- The double quote. -/
def mark : UInt8 := 0x22

def backslash : UInt8 := 0x5C

def newline : UInt8 := 0x0A

/-- The control characters that have a letter. -/
def letters : List (UInt8 × UInt8) :=
  [(0x61, 0x07), (0x62, 0x08), (0x66, 0x0C), (0x6E, 0x0A), (0x72, 0x0D), (0x74, 0x09), (0x76, 0x0B)]

/-! ## Reading -/

def unhex (b : UInt8) : Option Nat :=
  if 0x30 ≤ b.toNat ∧ b.toNat ≤ 0x39 then some (b.toNat - 0x30)
  else if 0x61 ≤ b.toNat ∧ b.toNat ≤ 0x66 then some (b.toNat - 0x61 + 10)
  else if 0x41 ≤ b.toNat ∧ b.toNat ≤ 0x46 then some (b.toNat - 0x41 + 10)
  else none

/-- The number that hexadecimal digits continue. -/
def unhexAll : Nat → List UInt8 → Option Nat
  | v, [] => some v
  | v, d :: ds => (unhex d).bind fun x => unhexAll (16 * v + x) ds

/-- `n` hexadecimal digits, and the rest. -/
def hexNumber (n : Nat) (s : List UInt8) : Option (Nat × List UInt8) :=
  if s.length < n then none else (unhexAll 0 (s.take n)).map fun v => (v, s.drop n)

/-- A character given by its number. -/
def rune (v : Nat) (s : List UInt8) : Option (List UInt8 × List UInt8) :=
  if v.isValidChar then some (encodeRune (.ofNat v), s) else none

/-- An octal number of three digits, of which the first is there. -/
def octal (c : UInt8) : List UInt8 → Option (List UInt8 × List UInt8)
  | d :: e :: s =>
    if [c, d, e].all (fun b => 0x30 ≤ b.toNat && b.toNat ≤ 0x37) then
      let v := 64 * (c.toNat - 0x30) + 8 * (d.toNat - 0x30) + (e.toNat - 0x30)
      if 255 < v then none else some ([.ofNat v], s)
    else none
  | _ => none

/-- The escape whose letter is `c`: the bytes it stands for, and the rest. -/
def unquoteEscape (c : UInt8) (s : List UInt8) : Option (List UInt8 × List UInt8) :=
  match letters.lookup c with
  | some v => some ([v], s)
  | none =>
    if c = 0x78 then (hexNumber 2 s).map fun (v, s) => ([.ofNat v], s)
    else if c = 0x75 then (hexNumber 4 s).bind fun (v, s) => rune v s
    else if c = 0x55 then (hexNumber 8 s).bind fun (v, s) => rune v s
    else if c = backslash ∨ c = mark then some ([c], s)
    else octal c s

/-- What follows a backslash. -/
def unquoteBackslash : List UInt8 → Option (List UInt8 × List UInt8)
  | [] => none
  | c :: s => unquoteEscape c s

/-- `UnquoteChar`; a stray byte becomes the replacement character. -/
def unquoteChar : List UInt8 → Option (List UInt8 × List UInt8)
  | [] => none
  | b :: s =>
    if 0x80 ≤ b.toNat then
      match decodeRune (b :: s) with
      | some (c, rest) => some (encodeRune c, rest)
      | none => some (encodeRune (.ofNat 0xFFFD), s)
    else if b = backslash then unquoteBackslash s
    else some ([b], s)

/-- The characters up to the closing mark, and the rest. -/
def unquoteLoop : Nat → List UInt8 → Option (List UInt8 × List UInt8)
  | 0, _ => none
  | _ + 1, [] => none
  | fuel + 1, b :: s =>
    if b = mark then some ([], s)
    else if b = newline then none
    else (unquoteChar (b :: s)).bind fun (bytes, rest) =>
      (unquoteLoop fuel rest).map fun (more, rest) => (bytes ++ more, rest)

/-- `Unquote` of a text that begins with a double quote. -/
def unquote : List UInt8 → Option (List UInt8)
  | [] => none
  | b :: s =>
    if b = mark then
      match unquoteLoop (s.length + 1) s with
      | some (bytes, []) => some bytes
      | _ => none
    else none

end ZClone.Quote
