import ZClone.Lib.Decimal
import ZClone.Lib.Path
import ZClone.Lib.Utf8

/-!
# Names of chunks (`backend/chunker/chunker.go`)

The name of a chunk is that of its file, then the number between fixed texts, then the identifier of the transaction if
the chunk is a temporary one. `makeChunkName` makes it and `parseChunkName` takes it apart, by a regular expression
whose search `matchName` follows in the order of the library.
-/

namespace ZClone.Chunker

open Paths (Text ascii slash)
open Decimal (atoi itoa isDigit)

def underscore : UInt8 := 0x5F

def isLower (b : UInt8) : Bool := 0x61 ≤ b && b ≤ 0x7A

/-- Zeros before a text, as `%0Nd` and `%0Ns` have them. -/
def padded (n : Nat) (t : Text) : Text := List.replicate (n - t.length) 0x30 ++ t

/-- `strconv.FormatInt` with base 36 of a number that is not negative. -/
def formatInt36 (n : Nat) : Text :=
  if n = 0 then [0x30] else ((Nat.digits 36 n).reverse).map fun d =>
    .ofNat (if d < 10 then 0x30 + d else 0x61 + (d - 10))

/-- The pattern `*mid##tail`, with the number of its hashes, and `start_from`. -/
structure NameFormat where
  mid : Text
  digits : Nat
  tail : Text
  startFrom : Nat

def asterisk : UInt8 := 0x2A

def hashMark : UInt8 := 0x23

/-- `setChunkNameFormat`; `none` is an error or a panic of the library, for text that is not UTF-8 or repetitions of
more than 1000. -/
def setChunkNameFormat (pattern : Text) (startFrom : Nat) : Option NameFormat :=
  let numDigits := pattern.count hashMark
  let tail := (pattern.dropWhile (· ≠ hashMark)).dropWhile (· = hashMark)
  if pattern.count asterisk ≠ 1 then none
  else if numDigits < 1 then none
  else if pattern.idxOf hashMark < pattern.idxOf asterisk then none
  -- the hashes are consecutive
  else if hashMark ∈ tail then none
  else if slash ∈ pattern then none
  else if pattern.head? ≠ some asterisk then none
  else if ¬(Utf8.symbols pattern).all (fun x => x matches .char _) ∨ 1000 < numDigits then none
  else some ⟨pattern.tail.takeWhile (· ≠ hashMark), numDigits, tail, startFrom⟩

/-- `makeChunkName` for data chunks; there are no others. -/
def makeChunkName (f : NameFormat) (filePath : Text) (chunkNo : Nat) (xactID : Text) : Text :=
  filePath ++ f.mid ++ padded f.digits (itoa (chunkNo + f.startFrom)) ++ f.tail ++
    (if xactID = [] then [] else underscore :: padded 4 xactID)

/-! ## Taking names apart -/

/-- The groups of `nameRegexp`. -/
structure Groups where
  main : Text
  data : Text
  ctrl : Text
  temp : Text
  old : Text

/-- What follows a text. -/
def after (start t : Text) : Option Text := if start.isPrefixOf t then some (t.drop start.length) else none

/-- The end of the pattern: nothing, a transaction, or an old one. -/
def matchEnd (t : Text) : Option (Text × Text) :=
  if t = [] then some ([], [])
  else
    match after [underscore] t, after (ascii "..tmp_".toList) t with
    | some temp, _ =>
      if 4 ≤ temp.length ∧ temp.length ≤ 9 ∧ temp.all (fun b => isDigit b || isLower b) then some (temp, []) else none
    | _, some old => if 10 ≤ old.length ∧ old.length ≤ 13 ∧ old.all isDigit then some ([], old) else none
    | _, _ => none

/-- The pattern behind the number or the control type. -/
def matchTail (f : NameFormat) (t : Text) : Option (Text × Text) := (after f.tail t).bind matchEnd

/-- The pattern from the number on: as many digits as possible, or a control type as long as possible. -/
def matchNumber (f : NameFormat) (main t : Text) : Option Groups :=
  let run := (t.takeWhile isDigit).length
  let number := (List.range' f.digits (run + 1 - f.digits)).reverse.findSome? fun n =>
    (matchTail f (t.drop n)).map fun (temp, old) => ⟨main, t.take n, [], temp, old⟩
  let control := (after [underscore] t).bind fun t =>
    let run := (t.takeWhile fun b => isDigit b || isLower b).length
    if t.head?.any isLower then
      (List.range' 3 (min run 7 + 1 - 3)).reverse.findSome? fun n =>
        (matchTail f (t.drop n)).map fun (temp, old) => ⟨main, [], t.take n, temp, old⟩
    else none
  number <|> control

/-- `nameRegexp.FindStringSubmatch`: the main name is as short as possible and has no line feed. -/
def matchName (f : NameFormat) (name : Text) : Option Groups :=
  (List.range' 1 name.length).findSome? fun i =>
    if 0x0A ∈ name.take i then none else (after f.mid (name.drop i)).bind (matchNumber f (name.take i))

structure ChunkName where
  parentPath : Text
  chunkNo : Int
  ctrlType : Text
  xactID : Text

/-- `parseChunkName`; `none` is no chunk. -/
def parseChunkName (f : NameFormat) (filePath : Text) : Option ChunkName :=
  (matchName f (filePath.rtakeWhile (· ≠ slash))).bind fun m =>
    let chunkNo : Int := if m.data = [] then -1 else (atoi m.data).getD (-1) - f.startFrom
    if m.data ≠ [] ∧ chunkNo < 0 then none
    else
      let xactID : Option Text :=
        if m.old = [] then some m.temp
        else
          match atoi m.old with
          | some number => if number < 0 then none else some (padded 4 (formatInt36 number.toNat))
          | none => none
      xactID.map fun xactID => ⟨filePath.rdropWhile (· ≠ slash) ++ m.main, chunkNo, m.ctrl, xactID⟩

/-! ## Different names -/

theorem isDigit_of_mem_padded {n m : Nat} {b : UInt8} (h : b ∈ padded n (itoa m)) : isDigit b = true := by
  rcases List.mem_append.mp h with h | h
  · rw [List.eq_of_mem_replicate h]
    rfl
  · obtain ⟨d, hd, rfl⟩ := Decimal.exists_of_mem_itoa h
    interval_cases d <;> rfl

/-- The loop of `atoi` over a number with zeros before it. -/
theorem foldl_padded (n m : Nat) : (padded n (itoa m)).foldl (fun n b => 10 * n + (b.toNat - 0x30 : Int)) 0 = m := by
  have hzeros : ∀ k, (List.replicate k (0x30 : UInt8)).foldl (fun n b => 10 * n + (b.toNat - 0x30 : Int)) 0 = 0 := by
    intro k
    induction k with
    | zero => rfl
    | succ k ih => exact ih
  rw [padded, List.foldl_append, hzeros, Decimal.foldl_itoa]

end ZClone.Chunker
