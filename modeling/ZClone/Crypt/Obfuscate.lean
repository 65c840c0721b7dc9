import ZClone.Crypt.Stream
import ZClone.Lib.Decimal
import ZClone.Lib.Path
import ZClone.Lib.Utf8

/-!
# Obfuscated names (`backend/crypt/cipher.go`)

`obfuscateSegment` rotates the characters of a name by a distance that it puts before it; `deobfuscateSegment` rotates
them back (`deobfuscateSegment_obfuscateSegment`). The sum of the characters is a number here, where the source has an
`int` that would overflow with names of 2^42 characters.
-/

namespace ZClone.Crypt

open Utf8 Decimal Paths

/-- Errors of names, by the names of their variables. `corruptInput` is the error of the base32 library. -/
inductive NameErr where
  | paddingNotFound
  | paddingNotAMultiple
  | paddingTooLong
  | paddingTooShort
  | paddingNotAllTheSame
  | notAMultipleOfBlocksize
  | tooShortAfterDecode
  | tooLongAfterDecode
  | badBase32Encoding
  | corruptInput
  | notAnEncryptedFile
  deriving DecidableEq

def obfuscQuoteRune : Char := '!'

/-- `obfuscQuoteRune` as a byte. -/
def quoteByte : UInt8 := 0x21

/-- What the name key adds to the distance. -/
def keySum (nameKey : List UInt8) : Nat := (nameKey.map UInt8.toNat).sum

/-- What `obfuscateSegment` writes for a character. -/
def rotateRune (dir : Nat) (c : Char) : List Char :=
  let r := c.toNat
  -- Quote the Quote character
  if c = obfuscQuoteRune then [obfuscQuoteRune, obfuscQuoteRune]
  -- Number
  else if 0x30 ≤ r ∧ r ≤ 0x39 then [.ofNat (0x30 + (r - 0x30 + (dir % 9 + 1)) % 10)]
  else if (0x41 ≤ r ∧ r ≤ 0x5A) ∨ (0x61 ≤ r ∧ r ≤ 0x7A) then
    -- ASCII letter: its offset in A-Za-z
    let pos := if 26 ≤ r - 0x41 then r - 0x41 - 6 else r - 0x41
    let pos := (pos + (dir % 25 + 1)) % 52
    [.ofNat (0x41 + if 26 ≤ pos then pos + 6 else pos)]
  -- Latin 1 supplement
  else if 0xA0 ≤ r ∧ r ≤ 0xFF then [.ofNat (0xA0 + (r - 0xA0 + (dir % 95 + 1)) % 96)]
  else if 0x100 ≤ r then
    -- Some random Unicode range
    let base := r - r % 256
    let newRune := base + (r - base + (dir % 127 + 1)) % 256
    if newRune.isValidChar then [.ofNat newRune] else [obfuscQuoteRune, c]
  else [c]

def obfuscateSegment (nameKey : List UInt8) (plaintext : Text) : Text :=
  if plaintext = [] then []
  else if ¬validString plaintext then quoteByte :: dot :: plaintext
  else
    let runes := (symbols plaintext).map Symbol.rune
    let dir := (runes.map Char.toNat).sum % 256
    itoa dir ++ dot :: bytes (chars (runes.flatMap (rotateRune (dir + keySum nameKey))))

/-- The rune that `WriteRune` writes. -/
def toRune (r : Int) : Char := if 0 ≤ r ∧ r.toNat.isValidChar then .ofNat r.toNat else .ofNat 0xFFFD

/-- What `deobfuscateSegment` writes for a character that is not quoted. The distance may be negative. -/
def unrotateRune (dir : Int) (c : Char) : Char :=
  let r : Int := c.toNat
  if 0x30 ≤ r ∧ r ≤ 0x39 then
    let newRune := r - (dir.tmod 9 + 1)
    toRune (if newRune < 0x30 then newRune + 10 else newRune)
  else if (0x41 ≤ r ∧ r ≤ 0x5A) ∨ (0x61 ≤ r ∧ r ≤ 0x7A) then
    let pos := (if 26 ≤ r - 0x41 then r - 0x41 - 6 else r - 0x41) - (dir.tmod 25 + 1)
    let pos := if pos < 0 then pos + 52 else pos
    toRune (0x41 + if 26 ≤ pos then pos + 6 else pos)
  else if 0xA0 ≤ r ∧ r ≤ 0xFF then
    let newRune := r - (dir.tmod 95 + 1)
    toRune (if newRune < 0xA0 then newRune + 96 else newRune)
  else if 0x100 ≤ r then
    let base := r - r % 256
    let newRune := base + (r - base - (dir.tmod 127 + 1))
    toRune (if newRune < base then newRune + 256 else newRune)
  else c

/-- The loop of `deobfuscateSegment`. -/
def unrotate (dir : Int) : Bool → List Char → List Char
  | _, [] => []
  | true, c :: rest => c :: unrotate dir false rest
  | false, c :: rest =>
    if c = obfuscQuoteRune then unrotate dir true rest else unrotateRune dir c :: unrotate dir false rest

def deobfuscateSegment (nameKey : List UInt8) (ciphertext : Text) : Except NameErr Text :=
  if ciphertext = [] then .ok []
  else if dot ∉ ciphertext then .error .notAnEncryptedFile
  else
    let num := ciphertext.takeWhile (· ≠ dot)
    let after := (ciphertext.dropWhile (· ≠ dot)).tail
    -- No rotation; probably original was not valid unicode
    if num = [quoteByte] then .ok after
    else
      match atoi num with
      | none => .error .notAnEncryptedFile
      | some dir =>
        .ok (bytes (chars (unrotate (int64 (dir + keySum nameKey)) false ((symbols after).map Symbol.rune))))

/-! ## One character -/

theorem toNat_ofNat_of_lt {n : Nat} (h : n < 0xD800) : (Char.ofNat n).toNat = n := toNat_ofNat_char (.inl h)

variable {c : Char} {nameKey : List UInt8} {cs : List Char} {s : Text} {dir : Nat}

theorem toRune_toNat {r : Int} (h : r = c.toNat) : toRune r = c := by
  have hvalid : r.toNat = c.toNat := by omega
  rw [toRune, if_pos ⟨by omega, by rw [hvalid]; exact c.valid⟩, hvalid, Char.ofNat_toNat]

/-- A character of a page of 256 leads to others of the page only, which are valid as it is. -/
theorem isValidChar_page {k : Nat} (h : k < 256) : (c.toNat - c.toNat % 256 + k).isValidChar := by
  obtain hlow | ⟨hlow, hhigh⟩ : c.toNat.isValidChar := c.valid
  · exact .inl (by omega)
  · exact .inr ⟨by omega, by omega⟩

theorem ofNat_ne_quote {n : Nat} (hvalid : n.isValidChar) (hn : n ≠ 0x21) : Char.ofNat n ≠ obfuscQuoteRune := by
  intro heq
  have hnat := congrArg Char.toNat heq
  rw [toNat_ofNat_char hvalid] at hnat
  exact hn hnat

/-- What is written for a character: one character that is not a quote, is rotated back, and is a slash only for a
slash. -/
def Rotates (dir : Nat) (c d : Char) : Prop :=
  d ≠ obfuscQuoteRune ∧ unrotateRune dir d = c ∧ (d.toNat = 0x2F → c.toNat = 0x2F)

theorem tmod_natCast (dir k : Nat) : (dir : Int).tmod k = (dir % k : Nat) := (Int.ofNat_tmod dir k).symm

theorem rotates_number (h : 0x30 ≤ c.toNat ∧ c.toNat ≤ 0x39) :
    Rotates dir c (.ofNat (0x30 + (c.toNat - 0x30 + (dir % 9 + 1)) % 10)) := by
  have hd := toNat_ofNat_of_lt (show 0x30 + (c.toNat - 0x30 + (dir % 9 + 1)) % 10 < 0xD800 by omega)
  refine ⟨ofNat_ne_quote (.inl (by omega)) (by omega), ?_, by omega⟩
  have hdir : (dir : Int).tmod 9 = (dir % 9 : Nat) := tmod_natCast dir 9
  rw [unrotateRune, hd]
  rw [if_pos (by omega)]
  refine toRune_toNat ?_
  split_ifs <;> omega

theorem rotates_letter (h : (0x41 ≤ c.toNat ∧ c.toNat ≤ 0x5A) ∨ (0x61 ≤ c.toNat ∧ c.toNat ≤ 0x7A)) :
    Rotates dir c (.ofNat (0x41 +
      if 26 ≤ ((if 26 ≤ c.toNat - 0x41 then c.toNat - 0x41 - 6 else c.toNat - 0x41) + (dir % 25 + 1)) % 52 then
        ((if 26 ≤ c.toNat - 0x41 then c.toNat - 0x41 - 6 else c.toNat - 0x41) + (dir % 25 + 1)) % 52 + 6
      else ((if 26 ≤ c.toNat - 0x41 then c.toNat - 0x41 - 6 else c.toNat - 0x41) + (dir % 25 + 1)) % 52)) := by
  obtain ⟨pos, hpos⟩ : ∃ pos, pos = if 26 ≤ c.toNat - 0x41 then c.toNat - 0x41 - 6 else c.toNat - 0x41 := ⟨_, rfl⟩
  obtain ⟨new, hnew⟩ : ∃ new, new = (pos + (dir % 25 + 1)) % 52 := ⟨_, rfl⟩
  obtain ⟨n, hn⟩ : ∃ n, n = 0x41 + if 26 ≤ new then new + 6 else new := ⟨_, rfl⟩
  have hn' : (0x41 ≤ n ∧ n ≤ 0x5A) ∨ (0x61 ≤ n ∧ n ≤ 0x7A) := by split_ifs at hn <;> omega
  rw [← hpos, ← hnew, ← hn]
  have hd := toNat_ofNat_of_lt (show n < 0xD800 by omega)
  refine ⟨ofNat_ne_quote (.inl (by omega)) (by omega), ?_, by omega⟩
  have hdir : (dir : Int).tmod 25 = (dir % 25 : Nat) := tmod_natCast dir 25
  -- the offset of the new letter
  have hback : (if (26 : Int) ≤ n - 0x41 then (n : Int) - 0x41 - 6 else n - 0x41) = new := by
    split_ifs at hn ⊢ <;> omega
  rw [unrotateRune, hd]
  rw [if_neg (by omega), if_pos (by omega), hback, hdir]
  refine toRune_toNat ?_
  split_ifs at hpos ⊢ <;> omega

theorem rotates_latin1 (h : 0xA0 ≤ c.toNat ∧ c.toNat ≤ 0xFF) :
    Rotates dir c (.ofNat (0xA0 + (c.toNat - 0xA0 + (dir % 95 + 1)) % 96)) := by
  have hd := toNat_ofNat_of_lt (show 0xA0 + (c.toNat - 0xA0 + (dir % 95 + 1)) % 96 < 0xD800 by omega)
  refine ⟨ofNat_ne_quote (.inl (by omega)) (by omega), ?_, by omega⟩
  have hdir : (dir : Int).tmod 95 = (dir % 95 : Nat) := tmod_natCast dir 95
  rw [unrotateRune, hd]
  rw [if_neg (by omega), if_neg (by omega), if_pos (by omega)]
  refine toRune_toNat ?_
  split_ifs <;> omega

theorem rotates_page (h : 0x100 ≤ c.toNat) :
    Rotates dir c (.ofNat
      (c.toNat - c.toNat % 256 + (c.toNat - (c.toNat - c.toNat % 256) + (dir % 127 + 1)) % 256)) := by
  have hvalid :=
    @isValidChar_page c _ (Nat.mod_lt (c.toNat - (c.toNat - c.toNat % 256) + (dir % 127 + 1)) (show 0 < 256 by decide))
  have hd := toNat_ofNat_char hvalid
  refine ⟨ofNat_ne_quote hvalid (by omega), ?_, by omega⟩
  have hdir : (dir : Int).tmod 127 = (dir % 127 : Nat) := tmod_natCast dir 127
  rw [unrotateRune, hd]
  rw [if_neg (by omega), if_neg (by omega), if_neg (by omega), if_pos (by omega)]
  refine toRune_toNat ?_
  split_ifs <;> omega

theorem exists_rotateRune (hc : c ≠ obfuscQuoteRune) (dir : Nat) : ∃ d, rotateRune dir c = [d] ∧ Rotates dir c d := by
  rw [rotateRune, if_neg hc]
  by_cases hnumber : 0x30 ≤ c.toNat ∧ c.toNat ≤ 0x39
  · exact ⟨_, if_pos hnumber, rotates_number hnumber⟩
  rw [if_neg hnumber]
  by_cases hletter : (0x41 ≤ c.toNat ∧ c.toNat ≤ 0x5A) ∨ (0x61 ≤ c.toNat ∧ c.toNat ≤ 0x7A)
  · exact ⟨_, if_pos hletter, rotates_letter hletter⟩
  rw [if_neg hletter]
  by_cases hlatin : 0xA0 ≤ c.toNat ∧ c.toNat ≤ 0xFF
  · exact ⟨_, if_pos hlatin, rotates_latin1 hlatin⟩
  rw [if_neg hlatin]
  by_cases hpage : 0x100 ≤ c.toNat
  · -- the new character is always valid, so that nothing is quoted
    have hvalid :=
      @isValidChar_page c _
        (Nat.mod_lt (c.toNat - (c.toNat - c.toNat % 256) + (dir % 127 + 1)) (show 0 < 256 by decide))
    exact ⟨_, by rw [if_pos hpage, if_pos hvalid], rotates_page hpage⟩
  · refine ⟨c, if_neg hpage, hc, ?_, id⟩
    rw [unrotateRune]
    dsimp only
    rw [if_neg (by omega), if_neg (by omega), if_neg (by omega), if_neg (by omega)]

/-! ## Names -/

theorem unrotate_rotateRune (dir : Nat) (c : Char) (rest : List Char) :
    unrotate dir false (rotateRune dir c ++ rest) = c :: unrotate dir false rest := by
  by_cases hc : c = obfuscQuoteRune
  · rw [hc, rotateRune, if_pos rfl]
    rfl
  · obtain ⟨d, hrotate, hquote, hback, -⟩ := exists_rotateRune hc dir
    rw [hrotate, List.singleton_append, unrotate, if_neg hquote, hback]

theorem unrotate_flatMap (dir : Nat) (cs : List Char) : unrotate dir false (cs.flatMap (rotateRune dir)) = cs := by
  induction cs with
  | nil => rfl
  | cons c cs ih => rw [List.flatMap_cons, unrotate_rotateRune, ih]

/-- A valid string is one of characters. -/
theorem symbols_of_validString (h : validString s = true) : symbols s = chars ((symbols s).map Symbol.rune) := by
  rw [validString, List.all_eq_true] at h
  rw [chars, List.map_map]
  refine (List.map_id _).symm.trans (List.map_congr_left fun x hx => ?_)
  cases x with
  | char c => rfl
  | stray b => exact absurd (h _ hx) Bool.false_ne_true

theorem map_rune_chars (cs : List Char) : (chars cs).map Symbol.rune = cs := by
  rw [chars, List.map_map]
  exact List.map_id cs

theorem dot_notMem_itoa (n : Nat) : dot ∉ itoa n := by
  intro hmem
  obtain ⟨d, hd, hdot⟩ := exists_of_mem_itoa hmem
  have hnat := congrArg UInt8.toNat hdot
  rw [toNat_digit hd] at hnat
  exact absurd hnat (by rw [show dot.toNat = 0x2E from rfl]; omega)

/-- The text before and behind the first dot. -/
theorem cut_append {num after : Text} (h : dot ∉ num) :
    (num ++ dot :: after).takeWhile (· ≠ dot) = num ∧ ((num ++ dot :: after).dropWhile (· ≠ dot)).tail = after := by
  have hall : ∀ b ∈ num, decide (b ≠ dot) = true := fun b hb => decide_eq_true fun heq => h (heq ▸ hb)
  constructor
  · rw [List.takeWhile_append_of_pos hall, List.takeWhile_cons_of_neg (by simp), List.append_nil]
  · rw [List.dropWhile_append_of_pos hall, List.dropWhile_cons_of_neg (by simp), List.tail_cons]

theorem keySum_le : keySum nameKey ≤ 255 * nameKey.length := by
  induction nameKey with
  | nil => exact Nat.le_refl 0
  | cons b key ih =>
    have hb : b.toNat < 256 := b.toNat_lt
    rw [keySum, List.map_cons, List.sum_cons, List.length_cons]
    rw [keySum] at ih
    omega

theorem deobfuscateSegment_obfuscateSegment (hkey : nameKey.length ≤ 32) (s : Text) :
    deobfuscateSegment nameKey (obfuscateSegment nameKey s) = .ok s := by
  by_cases hnil : s = []
  · rw [hnil]
    rfl
  rw [obfuscateSegment, if_neg hnil]
  by_cases hvalid : validString s = true
  · rw [if_neg (not_not.mpr hvalid)]
    dsimp only
    generalize hdir : (((symbols s).map Symbol.rune).map Char.toNat).sum % 256 = dir
    have hcut := @cut_append _
      (bytes (chars (((symbols s).map Symbol.rune).flatMap (rotateRune (dir + keySum nameKey)))))
      (dot_notMem_itoa dir)
    have hnum : itoa dir ≠ [quoteByte] := by
      intro heq
      obtain ⟨d, hd, hquote⟩ := exists_of_mem_itoa (heq ▸ List.mem_singleton_self quoteByte)
      have hnat := congrArg UInt8.toNat hquote
      rw [toNat_digit hd, show quoteByte.toNat = 0x21 from rfl] at hnat
      omega
    have hdistance : int64 ((dir : Int) + keySum nameKey) = (dir + keySum nameKey : Nat) := by
      have hsum := @keySum_le nameKey
      rw [int64, Int.bmod_eq_of_le (by omega) (by omega), Nat.cast_add]
    rw [deobfuscateSegment, if_neg (by simp), if_neg (by simp)]
    rw [hcut.1, hcut.2, if_neg hnum, atoi_itoa (by omega)]
    dsimp only
    rw [hdistance, symbols_bytes (valid_chars _).stable, map_rune_chars, unrotate_flatMap,
      ← symbols_of_validString hvalid, bytes_symbols]
  · rw [if_pos hvalid]
    have hcut := @cut_append [quoteByte] s (by decide)
    rw [deobfuscateSegment, if_neg (List.cons_ne_nil _ _), if_neg (by simp)]
    rw [← List.singleton_append, hcut.1, hcut.2, if_pos rfl]

theorem mem_of_mem_bytes {b : UInt8} (hb : b.toNat < 0x80) (h : b ∈ bytes (chars cs)) :
    ∃ c ∈ cs, c.toNat = b.toNat := by
  obtain ⟨x, hx, hmem⟩ := List.mem_flatMap.mp h
  obtain ⟨c, hc, rfl⟩ := List.mem_map.mp hx
  exact ⟨c, hc, (toNat_of_mem_encodeRune hmem hb).symm⟩

theorem slash_mem_of_char (hc : c ∈ cs) (hslash : c.toNat = 0x2F) : Paths.slash ∈ bytes (chars cs) := by
  refine List.mem_flatMap.mpr ⟨.char c, List.mem_map_of_mem hc, ?_⟩
  change Paths.slash ∈ encodeRune c
  rw [encodeRune, hslash]
  decide

/-- With a name key of 32 bytes every name comes back. -/
theorem deobfuscate_obfuscate (nameKey : Vector UInt8 32) (s : Text) :
    deobfuscateSegment nameKey.toList (obfuscateSegment nameKey.toList s) = .ok s :=
  deobfuscateSegment_obfuscateSegment (by simp) s

theorem slash_notMem_obfuscateSegment (h : Paths.slash ∉ s) : Paths.slash ∉ obfuscateSegment nameKey s := by
  rw [obfuscateSegment]
  split_ifs with hnil hvalid
  · exact List.not_mem_nil
  · dsimp only
    rw [List.mem_append, List.mem_cons]
    rintro (hmem | hmem | hmem)
    · obtain ⟨d, hd, heq⟩ := exists_of_mem_itoa hmem
      have hnat := congrArg UInt8.toNat heq
      rw [toNat_digit hd, show Paths.slash.toNat = 0x2F from rfl] at hnat
      omega
    · exact absurd hmem (by decide)
    · -- a slash among the rotated characters was one before
      obtain ⟨d, hd, hslash⟩ := mem_of_mem_bytes (by decide) hmem
      obtain ⟨c, hc, hd'⟩ := List.mem_flatMap.mp hd
      have hchar : c.toNat = 0x2F := by
        by_cases hquote : c = obfuscQuoteRune
        · rw [hquote, rotateRune, if_pos rfl] at hd'
          obtain rfl : d = obfuscQuoteRune := by simpa using hd'
          exact absurd hslash (by decide)
        · obtain ⟨d', hrotate, -, -, hback⟩ := exists_rotateRune hquote (_ + keySum nameKey)
          rw [hrotate, List.mem_singleton] at hd'
          exact hback (hd' ▸ hslash)
      have hmem' := slash_mem_of_char hc hchar
      rw [← symbols_of_validString hvalid, bytes_symbols] at hmem'
      exact h hmem'
  · rw [List.mem_cons, List.mem_cons, not_or, not_or]
    exact ⟨by decide, by decide, h⟩

end ZClone.Crypt
