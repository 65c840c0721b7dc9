import ZClone.Crypt.Names

/-!
# Encrypted names and their decryption

- `reveal_hide`: a segment that is hidden is revealed, by EME and base32 or by rotation.
- `Ambiguous`: the file names whose version is not put back, or that look as if they had one once they are obfuscated.
- `decrypt_encrypt_fileName_iff`: all other file names decrypt to themselves, and these do not. Directory names always
  do (`decryptDirName_encryptDirName`).
-/

namespace ZClone.Crypt

open Utf8 Paths Version List

/-! ## Padding -/

theorem pad_blocks {s : List UInt8} (h : s.length < 2048) : EmeBlocks (pad nameCipherBlockSize s) := by
  have hlen : (pad nameCipherBlockSize s).length = s.length + (16 - s.length % 16) := by
    rw [pad, length_append, length_replicate]
    rfl
  refine ⟨ne_nil_of_length_pos (by omega), ?_, by omega⟩
  rw [hlen, nameCipherBlockSize]
  omega

theorem unpad_pad {n : Nat} (hpos : 0 < n) (hlt : n < 256) (s : List UInt8) : unpad n (pad n s) = .ok s := by
  obtain ⟨padding, hpadding⟩ : ∃ padding, padding = n - s.length % n := ⟨_, rfl⟩
  have hmod : s.length % n < n := Nat.mod_lt _ hpos
  have hbyte : (UInt8.ofNat padding).toNat = padding := toNat_ofNat (by omega)
  have hlast : (s ++ replicate padding (UInt8.ofNat padding)).getLast? = some (.ofNat padding) := by
    rw [getLast?_append, getLast?_replicate, if_neg (by omega), Option.some_or]
  have hlen : (s ++ replicate padding (UInt8.ofNat padding)).length - padding = s.length := by
    rw [length_append, length_replicate, Nat.add_sub_cancel]
  have hmultiple : (s ++ replicate padding (UInt8.ofNat padding)).length % n = 0 := by
    have hsum : s.length + padding = n * (s.length / n) + n := by
      have hdiv := Nat.div_add_mod s.length n
      omega
    rw [length_append, length_replicate, hsum, ← Nat.mul_succ, Nat.mul_mod_right]
  rw [pad, ← hpadding, unpad, hlast]
  dsimp only
  rw [hbyte, if_neg (not_not.mpr hmultiple), if_neg (by omega), if_neg (by omega), hlen, drop_left, take_left,
    if_neg (by simp)]

/-! ## Base32 -/

section Base32

/-- The digits are ASCII, are not padding, and their lower case is read back and is none of the bytes that names are cut
at. -/
structure IsPlain (b : UInt8) : Prop where
  ne_equalsSign : b ≠ equalsSign
  lt : b < 0x80
  lower_lt : lowerByte b < 0x80
  upper_lower : upperByte (lowerByte b) = b
  lower_notMem : lowerByte b ∉ [Paths.slash, dash, equalsSign]

theorem isPlain_of_isHexDigit {b : UInt8} (h : isHexDigit b = true) : IsPlain b := by
  have hall : ∀ b : UInt8, isHexDigit b = true → b ≠ equalsSign ∧ b < 0x80 ∧ lowerByte b < 0x80 ∧
      upperByte (lowerByte b) = b ∧ lowerByte b ∉ [Paths.slash, dash, equalsSign] := forall_byte (by decide +kernel)
  obtain ⟨hequals, hlt, hlower, hback, hnotMem⟩ := hall b h
  exact ⟨hequals, hlt, hlower, hback, hnotMem⟩

variable (lib : Base32)

/-- The digits of an encoding: in lower case they are the name, and with the padding they are the encoding again. -/
theorem exists_digits (src : List UInt8) : ∃ digits : Text, (∀ b ∈ digits, IsPlain b) ∧
    (caseInsensitiveBase32Encoding lib).encodeToString src = digits.map lowerByte ∧
    lib.encodeToString src = digits ++ replicate ((digits.length + 7) / 8 * 8 - digits.length) equalsSign := by
  obtain ⟨digits, k, hencode, hdigits, hk, hmod⟩ := lib.encode_digits src
  have hplain : ∀ b ∈ digits, IsPlain b := fun b hb => isPlain_of_isHexDigit (hdigits b hb)
  have hk' : (digits.length + 7) / 8 * 8 - digits.length = k := by omega
  have htrim : (lib.encodeToString src).rdropWhile (· = equalsSign) = digits := by
    rw [hencode, rdropWhile, reverse_append, reverse_replicate,
      dropWhile_append_of_pos (by simp), dropWhile_eq_self_iff.mpr, reverse_reverse]
    intro hpos heq
    exact (hplain _ (mem_reverse.mp (get_mem _ _))).ne_equalsSign (of_decide_eq_true heq)
  refine ⟨digits, hplain, ?_, by rw [hk', hencode]⟩
  rw [caseInsensitiveBase32Encoding]
  dsimp only
  rw [htrim, lib.toLower_ascii fun b hb => (hplain b hb).lt]

theorem decodeString_encodeToString (src : List UInt8) :
    (caseInsensitiveBase32Encoding lib).decodeString ((caseInsensitiveBase32Encoding lib).encodeToString src) =
      .ok src := by
  obtain ⟨digits, hplain, hname, hencode⟩ := exists_digits lib src
  have hlast : (digits.map lowerByte).getLast? ≠ some equalsSign := by
    intro hlast
    obtain ⟨b, hb, heq⟩ := mem_map.mp (mem_of_getLast? hlast)
    exact (hplain b hb).lower_notMem (by rw [heq]; decide)
  have hupper : lib.toUpper (digits.map lowerByte) = digits := by
    have hascii : ∀ b ∈ digits.map lowerByte, b < 0x80 := by
      intro b hb
      obtain ⟨d, hd, rfl⟩ := mem_map.mp hb
      exact (hplain d hd).lower_lt
    rw [lib.toUpper_ascii hascii, map_map]
    exact (map_congr_left fun b hb => (hplain b hb).upper_lower).trans (map_id _)
  rw [hname, caseInsensitiveBase32Encoding]
  dsimp only
  rw [if_neg hlast, hupper, length_map, ← hencode, lib.decode_encode]

theorem notMem_encodeToString (src : List UInt8) {b : UInt8} (hb : b ∈ [Paths.slash, dash, equalsSign]) :
    b ∉ (caseInsensitiveBase32Encoding lib).encodeToString src := by
  obtain ⟨digits, hplain, hname, -⟩ := exists_digits lib src
  rw [hname]
  intro hmem
  obtain ⟨d, hd, rfl⟩ := mem_map.mp hmem
  exact (hplain d hd).lower_notMem hb

theorem encodeToString_ne_nil {src : List UInt8} (h : src ≠ []) :
    (caseInsensitiveBase32Encoding lib).encodeToString src ≠ [] := by
  intro hnil
  obtain ⟨digits, -, hname, hencode⟩ := exists_digits lib []
  rw [lib.encode_nil] at hencode
  rw [(append_eq_nil_iff.mp hencode.symm).1, map_nil] at hname
  have hsrc := decodeString_encodeToString lib src
  rw [hnil, ← hname, decodeString_encodeToString] at hsrc
  exact h (Except.ok.inj hsrc).symm

end Base32

/-! ## Segments -/

namespace NameCipher

variable {τ : Type} {c : NameCipher τ} {t : τ} {x s : Text}

/-- Names are encoded with base32, and a segment is short enough for EME, if it is used. -/
structure Suits (c : NameCipher τ) (x : Text) : Prop where
  base32 : c.mode = .standard → ∃ lib, c.fileNameEnc = caseInsensitiveBase32Encoding lib
  length_lt : c.mode = .standard → x.length < 2048

theorem decryptSegment_encryptSegment {lib : Base32} (hlib : c.fileNameEnc = caseInsensitiveBase32Encoding lib)
    (hlen : s.length < 2048) : c.decryptSegment (c.encryptSegment s) = .ok s := by
  by_cases hnil : s = []
  · subst hnil
    rfl
  have hblocks := pad_blocks hlen
  have hlength := c.length_emeEncrypt hblocks
  have hname := encodeToString_ne_nil lib (ne_nil_of_length_pos (by rw [hlength]; exact length_pos_iff.mpr hblocks.1))
  rw [encryptSegment, if_neg hnil, decryptSegment, hlib, if_neg hname, decodeString_encodeToString]
  simp only [bind, Except.bind]
  rw [if_neg (not_not.mpr (by rw [hlength]; exact hblocks.2.1)),
    if_neg (by rw [hlength]; exact fun h => hblocks.1 (length_eq_zero_iff.mp h)),
    if_neg (by rw [hlength]; exact Nat.not_lt.mpr hblocks.2.2), c.emeDecrypt_emeEncrypt hblocks]
  exact unpad_pad (by decide) (by decide) s

/-- A hidden segment is revealed. -/
theorem reveal_hide (h : c.Suits s) : c.reveal (c.hide s) = .ok s := by
  rw [reveal, hide]
  by_cases hmode : c.mode = .standard
  · obtain ⟨lib, hlib⟩ := h.base32 hmode
    rw [if_pos hmode, if_pos hmode, decryptSegment_encryptSegment hlib (h.length_lt hmode)]
  · rw [if_neg hmode, if_neg hmode, deobfuscateSegment_obfuscateSegment c.length_nameKey.le]

theorem slash_notMem_hide (h : c.Suits s) (hslash : Paths.slash ∉ s) : Paths.slash ∉ c.hide s := by
  rw [hide]
  by_cases hmode : c.mode = .standard
  · obtain ⟨lib, hlib⟩ := h.base32 hmode
    rw [if_pos hmode, encryptSegment, hlib]
    split_ifs
    · exact not_mem_nil
    · exact notMem_encodeToString lib _ (by decide)
  · rw [if_neg hmode]
    exact slash_notMem_obfuscateSegment hslash

/-! ## Versions -/

/-- What is stripped off is a version. -/
theorem strip_eq_some (h : c.strip x = some (t, s)) : ∃ b date fraction, IsVersion c.clock t date fraction ∧
    splitExt x = (b ++ (date ++ dash :: fraction), (splitExt x).2) ∧ s = b ++ (splitExt x).2 := by
  rw [strip] at h
  split_ifs at h with hmatched
  obtain hremove | ⟨t', b, date, fraction, hversion, hsplit, hremove⟩ := remove_cases c.clock x
  · simp [hremove] at h
  · rw [hremove] at h
    dsimp only at h
    split_ifs at h
    obtain ⟨rfl, rfl⟩ := Prod.mk.inj (Option.some.inj h)
    exact ⟨b, date, fraction, hversion, hsplit, rfl⟩

/-- What is left is part of the segment. -/
theorem strip_part (h : c.strip x = some (t, s)) (hx : Paths.slash ∉ x) (hsuits : c.Suits x) :
    Paths.slash ∉ s ∧ c.Suits s := by
  obtain ⟨b, date, fraction, -, hsplit, rfl⟩ := strip_eq_some h
  have hparts := append_splitExt x
  rw [hsplit] at hparts
  constructor
  · rw [← hparts] at hx
    simp only [mem_append] at hx ⊢
    exact fun h => hx (h.imp_left .inl)
  · refine ⟨hsuits.base32, fun hmode => Nat.lt_of_le_of_lt ?_ (hsuits.length_lt hmode)⟩
    have hlen := congrArg length hparts
    simp only [length_append] at hlen ⊢
    omega

theorem strip_add {w : Text} (h : c.clock.parse w = some t) (hslash : Paths.slash ∉ s) :
    c.strip (add c.clock s t) = some (t, s) := by
  have hne : s ≠ add c.clock s t := by
    intro heq
    obtain ⟨date, fraction, hstamp, hversion, -⟩ := exists_stamp h
    have hlen := congrArg length heq
    have hparts := congrArg length (append_splitExt s)
    rw [add, hstamp] at hlen
    simp only [length_append, length_cons] at hlen hparts
    omega
  rw [strip, if_pos (matched_add h s), remove_add h hslash]
  exact if_pos hne

/-- The file names that do not decrypt to themselves: the version stands before the extension only, or it is not the way
its time is printed; or there is none, but the obfuscated name looks as if there was one. -/
def Ambiguous (c : NameCipher τ) (x : Text) : Prop :=
  match c.strip x with
  | some (t, _) => ((splitExt x).1.length = versionLength ∧ (splitExt x).2 ≠ []) ∨ ¬stamp c.clock t <:+ (splitExt x).1
  | none => c.mode = .obfuscated ∧ c.strip (obfuscateSegment c.nameKey x) ≠ none

theorem decryptOne_encryptOne_of_strip (hx : Paths.slash ∉ x) (hsuits : c.Suits x) (hstrip : c.strip x = some (t, s)) :
    c.decryptOne true (c.encryptOne true x) = .ok (add c.clock s t) := by
  obtain ⟨b, date, fraction, hversion, -⟩ := strip_eq_some hstrip
  obtain ⟨hslash, hsuits'⟩ := strip_part hstrip hx hsuits
  rw [encryptOne, if_pos rfl, hstrip]
  rw [decryptOne, if_pos rfl, strip_add hversion.parse (slash_notMem_hide hsuits' hslash)]
  dsimp only
  rw [reveal_hide hsuits']
  rfl

/-- A version that was stripped off is put back, unless the name is ambiguous. -/
theorem add_strip_iff (hx : Paths.slash ∉ x) (hstrip : c.strip x = some (t, s)) :
    add c.clock s t = x ↔ ¬c.Ambiguous x := by
  obtain ⟨b, date, fraction, hversion, hsplit, rfl⟩ := strip_eq_some hstrip
  obtain ⟨date', fraction', hstamp, hversion', -⟩ := exists_stamp hversion.parse
  have hbase : (splitExt x).1 = b ++ (date ++ dash :: fraction) := by rw [hsplit]
  have hlen : (splitExt x).1.length = versionLength ↔ b = [] := by
    rw [hbase, ← length_eq_zero_iff]
    simp only [length_append, length_cons, hversion.length_date, hversion.length_fraction, versionLength]
    omega
  have hsuffix : stamp c.clock t <:+ (splitExt x).1 ↔ stamp c.clock t = date ++ dash :: fraction := by
    have hsame : (stamp c.clock t).length = (date ++ dash :: fraction).length := by
      rw [hstamp]
      simp only [length_append, length_cons, hversion.length_date, hversion.length_fraction, hversion'.length_date,
        hversion'.length_fraction]
    rw [hbase]
    constructor
    · intro h
      exact (suffix_of_suffix_length_le h (suffix_append _ _) hsame.le).eq_of_length hsame
    · intro h
      rw [h]
      exact suffix_append _ _
  rw [add_remove_iff hx hversion hsplit, Ambiguous, hstrip]
  dsimp only
  rw [hlen, hsuffix, not_or, not_not]

/-- An encrypted name has no version. -/
theorem strip_hide_of_standard (hsuits : c.Suits x) (hmode : c.mode = .standard) : c.strip (c.hide x) = none := by
  obtain ⟨lib, hlib⟩ := hsuits.base32 hmode
  have hdash : dash ∉ c.hide x := by
    rw [hide, if_pos hmode, encryptSegment, hlib]
    split_ifs
    · exact not_mem_nil
    · exact notMem_encodeToString lib _ (by decide)
  rw [strip, matched_of_notMem hdash]
  rfl

/-- Names without a version decrypt to themselves, unless they look as if they had one. -/
theorem decryptOne_encryptOne_of_none (hmode : c.mode ≠ .off) (hsuits : c.Suits x) (hstrip : c.strip x = none)
    (hx : Paths.slash ∉ x) :
    c.decryptOne true (c.encryptOne true x) = .ok x ↔ ¬c.Ambiguous x := by
  have hambiguous : c.Ambiguous x ↔ c.strip (c.hide x) ≠ none := by
    rw [Ambiguous, hstrip]
    by_cases hstandard : c.mode = .standard
    · rw [strip_hide_of_standard hsuits hstandard, hstandard]
      simp
    · have hobfuscated : c.mode = .obfuscated := by
        cases h : c.mode with
        | off => exact absurd h hmode
        | standard => exact absurd h hstandard
        | obfuscated => rfl
      rw [hide, if_neg hstandard]
      exact and_iff_right hobfuscated
  rw [hambiguous, not_not, encryptOne, if_pos rfl, hstrip]
  dsimp only
  rw [decryptOne, if_pos rfl]
  cases hhide : c.strip (c.hide x) with
  | none => exact iff_of_true (reveal_hide hsuits) rfl
  | some p =>
    obtain ⟨t', s'⟩ := p
    refine iff_of_false (fun hok => ?_) nofun
    dsimp only at hok
    cases hreveal : c.reveal s' with rw [hreveal] at hok
    | error e =>
      cases hok
    | ok z =>
      -- a version is put on, and the name had none
      obtain rfl : add c.clock z t' = x := Except.ok.inj hok
      obtain ⟨b, date, fraction, hversion, -⟩ := strip_eq_some hhide
      have hslash : Paths.slash ∉ z := by
        intro hmem
        rw [← append_splitExt z] at hmem
        refine hx ?_
        simp only [add, mem_append] at hmem ⊢
        exact hmem.imp_left .inl
      rw [strip_add hversion.parse hslash] at hstrip
      cases hstrip

theorem decryptOne_encryptOne_iff (hmode : c.mode ≠ .off) (hx : Paths.slash ∉ x) (hsuits : c.Suits x) :
    c.decryptOne true (c.encryptOne true x) = .ok x ↔ ¬c.Ambiguous x := by
  cases hstrip : c.strip x with
  | none => exact decryptOne_encryptOne_of_none hmode hsuits hstrip hx
  | some p =>
    rw [decryptOne_encryptOne_of_strip hx hsuits hstrip, ← add_strip_iff hx hstrip]
    exact ⟨Except.ok.inj, congrArg Except.ok⟩

/-! ## Paths -/

section Paths

variable {strip : Bool} {dirs xs : List Text} {path : Text}

theorem encryptSegments_ne_nil (h : xs ≠ []) : c.encryptSegments strip xs ≠ [] := by
  obtain ⟨y, ys, rfl⟩ := exists_cons_of_ne_nil h
  cases ys with
  | nil | cons z zs => exact cons_ne_nil _ _

theorem encryptSegments_cons (d : Text) (h : xs ≠ []) :
    c.encryptSegments strip (d :: xs) = c.encryptDir d :: c.encryptSegments strip xs := by
  obtain ⟨y, ys, rfl⟩ := exists_cons_of_ne_nil h
  rfl

theorem encryptSegments_append {ys : List Text} (h : ys ≠ []) :
    c.encryptSegments strip (xs ++ ys) = xs.map c.encryptDir ++ c.encryptSegments strip ys := by
  induction xs with
  | nil => rfl
  | cons x xs ih =>
    rw [cons_append, encryptSegments_cons x (append_ne_nil_of_right_ne_nil _ h), ih, map_cons, cons_append]

/-- A directory name is encrypted segment by segment, the last one as the others. -/
theorem encryptDirName_eq (hmode : c.mode ≠ .off) (d : Text) :
    c.encryptDirName d = render ((segments d).map c.encryptDir) := by
  rw [encryptDirName]
  by_cases hdirs : c.dirNameEncrypt = true
  · obtain ⟨xs, x, hx⟩ := (segments d).eq_nil_or_concat'.resolve_left (splitOn_ne_nil _ _)
    rw [if_neg (by simp [hmode, hdirs]), encryptPath, hx, encryptSegments_append (cons_ne_nil _ _),
      map_append, map_singleton, encryptDir, if_pos hdirs, encryptSegments]
  · have hid : c.encryptDir = id := funext fun x => if_neg hdirs
    rw [if_pos (.inr hdirs), hid, map_id, render_segments]

/-- An encrypted file is in the encrypted directory. -/
theorem encryptFileName_append (c : NameCipher τ) (d f : Text) :
    c.encryptFileName (d ++ Paths.slash :: f) = c.encryptDirName d ++ Paths.slash :: c.encryptFileName f := by
  rw [encryptFileName, encryptFileName]
  by_cases hmode : c.mode = .off
  · rw [if_pos hmode, if_pos hmode, encryptDirName, if_pos (.inl hmode), append_assoc, cons_append]
  · have hne : segments f ≠ [] := splitOn_ne_nil _ _
    have hdirs : (segments d).map c.encryptDir ≠ [] := by simp [segments]
    rw [if_neg hmode, if_neg hmode, encryptDirName_eq hmode, encryptPath, encryptPath, segments_append,
      encryptSegments_append hne, render_append hdirs (encryptSegments_ne_nil hne)]

theorem decryptSegments_cons (d : Text) (h : xs ≠ []) :
    c.decryptSegments strip (d :: xs) = (do return (← c.decryptDir d) :: (← c.decryptSegments strip xs)) := by
  obtain ⟨y, ys, rfl⟩ := exists_cons_of_ne_nil h
  rfl

theorem decryptDir_encryptDir (hsuits : c.Suits x) : c.decryptDir (c.encryptDir x) = .ok x := by
  rw [decryptDir, encryptDir]
  split_ifs
  · exact reveal_hide hsuits
  · rfl

/-- Only the last segment makes a difference. -/
theorem decryptSegments_encryptSegments (hdirs : ∀ d ∈ dirs, c.Suits d) :
    c.decryptSegments strip (c.encryptSegments strip (dirs ++ [x])) =
      (c.decryptOne strip (c.encryptOne strip x)).map fun y => dirs ++ [y] := by
  induction dirs with
  | nil =>
    change (do return [← c.decryptOne strip (c.encryptOne strip x)]) = _
    cases c.decryptOne strip (c.encryptOne strip x) <;> rfl
  | cons d dirs ih =>
    have hne : dirs ++ [x] ≠ [] := append_ne_nil_of_right_ne_nil _ (cons_ne_nil _ _)
    rw [cons_append, encryptSegments_cons d hne, decryptSegments_cons _ (encryptSegments_ne_nil hne),
      decryptDir_encryptDir (hdirs d mem_cons_self), ih fun e he => hdirs e (mem_cons_of_mem _ he)]
    cases c.decryptOne strip (c.encryptOne strip x) <;> rfl

theorem slash_notMem_encryptOne (hx : Paths.slash ∉ x) (hsuits : c.Suits x) : Paths.slash ∉ c.encryptOne strip x := by
  rw [encryptOne]
  cases hstrip : (if strip then c.strip x else none) with
  | none => exact slash_notMem_hide hsuits hx
  | some p =>
    obtain ⟨t, s⟩ := p
    have hstrip' : c.strip x = some (t, s) := by
      cases strip with
      | true => exact hstrip
      | false => cases hstrip
    obtain ⟨b, date, fraction, hversion, -⟩ := strip_eq_some hstrip'
    obtain ⟨hslash, hsuits'⟩ := strip_part hstrip' hx hsuits
    exact slash_notMem_add hversion.parse (slash_notMem_hide hsuits' hslash)

theorem slash_notMem_encryptSegments (hxs : ∀ x ∈ xs, Paths.slash ∉ x) (hsuits : ∀ x ∈ xs, c.Suits x) :
    ∀ y ∈ c.encryptSegments strip xs, Paths.slash ∉ y := by
  induction xs with
  | nil => exact nofun
  | cons x xs ih =>
    have hx := hxs x mem_cons_self
    have hsuits' := hsuits x mem_cons_self
    by_cases hnil : xs = []
    · subst hnil
      intro y hy
      rw [mem_singleton.mp hy]
      exact slash_notMem_encryptOne hx hsuits'
    · rw [encryptSegments_cons x hnil]
      intro y hy
      obtain rfl | hy := mem_cons.mp hy
      · rw [encryptDir]
        split_ifs
        · exact slash_notMem_encryptOne hx hsuits'
        · exact hx
      · exact ih (fun z hz => hxs z (mem_cons_of_mem _ hz)) (fun z hz => hsuits z (mem_cons_of_mem _ hz)) y hy

/-- A path decrypts to itself when its last segment does. -/
theorem decryptPath_encryptPath (hpath : segments path = dirs ++ [x]) (hsuits : ∀ s ∈ dirs ++ [x], c.Suits s) :
    c.decryptPath (c.encryptPath path strip) strip =
      (c.decryptOne strip (c.encryptOne strip x)).map fun y => render (dirs ++ [y]) := by
  have hne : dirs ++ [x] ≠ [] := append_ne_nil_of_right_ne_nil _ (cons_ne_nil _ _)
  have hslash : ∀ s ∈ dirs ++ [x], Paths.slash ∉ s := by
    rw [← hpath]
    exact slash_notMem_segments path
  rw [decryptPath, encryptPath, hpath,
    segments_render (encryptSegments_ne_nil hne) (slash_notMem_encryptSegments hslash hsuits),
    decryptSegments_encryptSegments fun d hd => hsuits d (mem_append_left _ hd)]
  cases c.decryptOne strip (c.encryptOne strip x) <;> rfl

end Paths

/-- Directory names decrypt to themselves, with a version or without. -/
theorem decryptDirName_encryptDirName {path : Text} (hsuits : ∀ s ∈ segments path, c.Suits s) :
    c.decryptDirName (c.encryptDirName path) = .ok path := by
  rw [decryptDirName, encryptDirName]
  by_cases hplain : c.mode = .off ∨ ¬c.dirNameEncrypt
  · rw [if_pos hplain, if_pos hplain]
  · rw [if_neg hplain, if_neg hplain]
    obtain ⟨dirs, x, hpath⟩ := eq_nil_or_concat' (segments path) |>.resolve_left (splitOn_ne_nil _ _)
    have hlast : c.decryptOne false (c.encryptOne false x) = .ok x :=
      reveal_hide (hsuits x (hpath ▸ mem_append_right _ (mem_singleton_self x)))
    rw [decryptPath_encryptPath hpath (hpath ▸ hsuits), hlast]
    change Except.ok (render (dirs ++ [x])) = _
    rw [← hpath, render_segments]

/-- A path decrypts to itself exactly when the name of the file is not ambiguous. -/
theorem decrypt_encrypt_fileName_iff (hmode : c.mode ≠ .off) {path : Text} {dirs : List Text} {x : Text}
    (hpath : segments path = dirs ++ [x]) (hsuits : ∀ s ∈ segments path, c.Suits s) :
    c.decryptFileName (c.encryptFileName path) = .ok path ↔ ¬c.Ambiguous x := by
  have hx : x ∈ segments path := hpath ▸ mem_append_right _ (mem_singleton_self x)
  rw [decryptFileName, encryptFileName, if_neg hmode, if_neg hmode, decryptPath_encryptPath hpath (hpath ▸ hsuits),
    ← decryptOne_encryptOne_iff hmode (slash_notMem_segments path x hx) (hsuits x hx)]
  cases hone : c.decryptOne true (c.encryptOne true x) with
  | error e => exact iff_of_false nofun nofun
  | ok y =>
    have hsame : render (dirs ++ [y]) = path ↔ y = x := by
      rw [← render_segments path, hpath]
      by_cases hdirs : dirs = []
      · rw [hdirs, nil_append, nil_append, render_singleton, render_singleton]
      · rw [render_concat hdirs, render_concat hdirs, append_right_inj, cons_inj_right]
    exact ⟨fun h => congrArg Except.ok (hsame.mp (Except.ok.inj h)),
      fun h => congrArg Except.ok (hsame.mpr (Except.ok.inj h))⟩

end NameCipher

/-! ## Examples of names -/

/-- A hexadecimal digit. -/
def nibble (n : Nat) : UInt8 := if n < 10 then .ofNat (0x30 + n) else .ofNat (0x37 + n)

def nibbleValue (b : UInt8) : Nat := if b ≤ 0x39 then b.toNat - 0x30 else b.toNat - 0x37

def nibblePair (b : UInt8) : Text := [nibble (b.toNat / 16), nibble (b.toNat % 16)]

def readPairs : Text → List UInt8
  | high :: low :: rest => .ofNat (nibbleValue high * 16 + nibbleValue low) :: readPairs rest
  | _ => []

theorem isHexDigit_of_mem {b d : UInt8} (h : d ∈ nibblePair b) : isHexDigit d = true := by
  have hall : ∀ b : UInt8, (nibblePair b).all isHexDigit = true := forall_byte (by decide +kernel)
  exact all_eq_true.mp (hall b) d h

theorem readPairs_nibblePair : ∀ b : UInt8, readPairs (nibblePair b) = [b] := forall_byte (by decide +kernel)

theorem length_flatMap_nibblePair (src : List UInt8) : (src.flatMap nibblePair).length = 2 * src.length := by
  induction src with
  | nil => rfl
  | cons b src ih =>
    rw [flatMap_cons, length_append, ih, length_cons]
    change 2 + 2 * src.length = _
    omega

theorem readPairs_flatMap (src : List UInt8) (rest : Text) :
    readPairs (src.flatMap nibblePair ++ rest) = src ++ readPairs rest := by
  induction src with
  | nil => rfl
  | cons b src ih =>
    have hb := readPairs_nibblePair b
    rw [flatMap_cons, append_assoc]
    change _ :: readPairs (src.flatMap nibblePair ++ rest) = _
    rw [ih, (cons.inj hb).1]
    rfl

/-- An encoding with two digits for a byte in the place of base32, which has eight for five. -/
def nibbles : Base32 where
  encodeToString src :=
    src.flatMap nibblePair ++ List.replicate ((2 * src.length + 7) / 8 * 8 - 2 * src.length) equalsSign
  decodeString s := some (readPairs (s.takeWhile (· ≠ equalsSign)))
  toUpper s := s.map upperByte
  toLower s := s.map lowerByte
  decode_encode src := by
    have hplain : ∀ b ∈ src.flatMap nibblePair, decide (b ≠ equalsSign) = true := by
      intro b hb
      obtain ⟨d, -, hd⟩ := List.mem_flatMap.mp hb
      exact decide_eq_true (isPlain_of_isHexDigit (isHexDigit_of_mem hd)).ne_equalsSign
    have hpadding : ∀ k, (List.replicate k equalsSign).takeWhile (· ≠ equalsSign) = [] := by
      intro k
      cases k <;> rfl
    have hpairs : readPairs (src.flatMap nibblePair ++ []) = src :=
      (readPairs_flatMap src []).trans (List.append_nil src)
    rw [List.takeWhile_append_of_pos hplain, hpadding, hpairs]
  encode_nil := rfl
  encode_digits src := by
    refine ⟨_, _, rfl, fun b hb => ?_, by omega, ?_⟩
    · obtain ⟨d, -, hd⟩ := List.mem_flatMap.mp hb
      exact isHexDigit_of_mem hd
    · rw [length_flatMap_nibblePair]
      omega
  toUpper_ascii _ := rfl
  toLower_ascii _ := rfl

/-- A cipher with a key of zeros and a transformation that changes nothing. -/
def zeroCipher (mode : NameEncryptionMode) : NameCipher Text where
  mode := mode
  fileNameEnc := caseInsensitiveBase32Encoding nibbles
  emeEncrypt data := data
  emeDecrypt data := data
  nameKey := List.replicate 32 0
  dirNameEncrypt := true
  encryptedSuffix := []
  clock := calendar
  length_nameKey := List.length_replicate
  length_emeEncrypt _ := rfl
  emeDecrypt_emeEncrypt _ := rfl

/-- `d/a-v2001-02-03-040506-123.txt`. -/
def versionedPath : Text := ascii
  ['d', '/', 'a', '-', 'v', '2', '0', '0', '1', '-', '0', '2', '-', '0', '3', '-', '0', '4', '0', '5', '0', '6', '-',
    '1', '2', '3', '.', 't', 'x', 't']

theorem decrypt_encrypt_versionedPath :
    (zeroCipher .standard).decryptFileName ((zeroCipher .standard).encryptFileName versionedPath) =
      .ok versionedPath := by
  refine (NameCipher.decrypt_encrypt_fileName_iff (by decide)
    (show segments versionedPath = [[0x64]] ++ [versionedPath.drop 2] by
    decide +kernel) ?_).mpr ?_
  · intro s hs
    have hlen : ∀ s ∈ segments versionedPath, s.length < 2048 := by decide +kernel
    exact ⟨fun _ => ⟨nibbles, rfl⟩, fun _ => hlen s hs⟩
  · have hstrip : (zeroCipher .standard).strip (versionedPath.drop 2) =
        some ((versionedPath.drop 3).take 19 ++ ascii ['.', '1', '2', '3'], ascii ['a', '.', 't', 'x', 't']) :=
          by decide +kernel
    rw [NameCipher.Ambiguous, hstrip]
    decide +kernel

theorem decrypt_encrypt_directory :
    (zeroCipher .standard).decryptDirName ((zeroCipher .standard).encryptDirName versionedPath) =
      .ok versionedPath := by
  have hlen : ∀ s ∈ segments versionedPath, s.length < 2048 := by decide +kernel
  exact NameCipher.decryptDirName_encryptDirName fun s hs => ⟨fun _ => ⟨nibbles, rfl⟩, fun _ => hlen s hs⟩

/-- A version before an extension comes back behind it. An obfuscated name that looks as if it had a version comes back
with one. -/
theorem decrypt_encrypt_changes_name :
    (zeroCipher .standard).decryptFileName ((zeroCipher .standard).encryptFileName (versionedPath.drop 3)) =
        .ok (ascii ['.', 't', 'x', 't'] ++ (versionedPath.drop 3).take 23) ∧
      (zeroCipher .obfuscated).decryptFileName ((zeroCipher .obfuscated).encryptFileName (ascii
        ['M', '-', 'h', '8', '6', '6', '7', '-', '6', '8', '-', '6', '9', '-', '6', '0', '6', '1', '6', '2', '-', '6',
          '6', '7', '.', 'f', 'j', 'f'])) = .ok (ascii
        ['M', '-', 'v', '2', '0', '0', '1', '-', '0', '2', '-', '0', '3', '-', '0', '4', '0', '5', '0', '6', '-', '0',
          '0', '1', '.', 'f', 'j', 'f']) := by
  decide +kernel

end ZClone.Crypt
