import Mathlib.Data.List.Basic
import Mathlib.Data.List.TakeWhile

/-!
# UTF-8 with stray bytes

A byte string is a sequence of encoded characters and of bytes that belong to none.

- `encodeRune` and `decodeRune` are UTF-8; `decodeRune_append` and `eq_of_decodeRune` say that they are inverse.
- `symbols` cuts a byte string into characters and stray bytes, `bytes` puts it together (`bytes_symbols`).
- `Stable`: the symbols that are cut out again (`symbols_bytes`); stray bytes only see the continuation bytes behind
  them (`decodeRune_isNone_congr`), so replacing characters by characters keeps it (`Stable.flatMap`).
-/

namespace ZClone.Utf8

open List

/-- A property of the members of a list by evaluation over the list, and not over all characters. -/
theorem forall_mem_of_all {α : Type} {l : List α} {P : α → Prop} [DecidablePred P] (h : l.all (P ·) = true) :
    ∀ x ∈ l, P x :=
  fun x hx => of_decide_eq_true (all_eq_true.mp h x hx)

/-- A continuation byte with the lowest six bits of a number. -/
def contByte (n : Nat) : UInt8 := .ofNat (0x80 + n % 64)

/-- The UTF-8 encoding of a character. -/
def encodeRune (c : Char) : List UInt8 :=
  let n := c.toNat
  if n < 0x80 then [.ofNat n]
  else if n < 0x800 then [.ofNat (0xC0 + n / 64), contByte n]
  else if n < 0x10000 then [.ofNat (0xE0 + n / 4096), contByte (n / 64), contByte n]
  else [.ofNat (0xF0 + n / 262144), contByte (n / 4096), contByte (n / 64), contByte n]

/-- A continuation byte. -/
def isCont (b : UInt8) : Bool := 0x80 ≤ b.toNat && b.toNat < 0xC0

/-- What a leading byte announces: the number of continuation bytes, its own bits, and the smallest character that is
encoded with that many bytes. -/
def announces (b : UInt8) : Option (Nat × Nat × Nat) :=
  let n := b.toNat
  if 0xC0 ≤ n ∧ n < 0xE0 then some (1, n - 0xC0, 0x80)
  else if 0xE0 ≤ n ∧ n < 0xF0 then some (2, n - 0xE0, 0x800)
  else if 0xF0 ≤ n ∧ n < 0xF8 then some (3, n - 0xF0, 0x10000)
  else none

/-- The number that the bits of the continuation bytes complete. -/
def collect (high : Nat) (conts : List UInt8) : Nat := conts.foldl (fun n b => n * 64 + (b.toNat - 0x80)) high

/-- The character that a byte string begins with, and the rest. -/
def decodeRune : List UInt8 → Option (Char × List UInt8)
  | [] => none
  | b :: rest =>
    if b.toNat < 0x80 then some (.ofNat b.toNat, rest)
    else
      match announces b with
      | none => none
      | some (k, high, least) =>
        let n := collect high (rest.take k)
        if (rest.take k).length = k ∧ (rest.take k).all isCont ∧ least ≤ n ∧ n.isValidChar then
          some (.ofNat n, rest.drop k)
        else none

/-- A character, or a byte that belongs to none. -/
inductive Symbol where
  | char (c : Char)
  | stray (b : UInt8)
  deriving DecidableEq

def Symbol.bytes : Symbol → List UInt8
  | .char c => encodeRune c
  | .stray b => [b]

def bytes (xs : List Symbol) : List UInt8 := xs.flatMap Symbol.bytes

/-- The character a symbol is read as: a stray byte is read as the replacement character. -/
def Symbol.rune : Symbol → Char
  | .char c => c
  | .stray _ => '�'

/-- Cut off one symbol after the other. -/
def symbolsLoop : Nat → List UInt8 → List Symbol
  | 0, _ => []
  | _ + 1, [] => []
  | fuel + 1, b :: rest =>
    match decodeRune (b :: rest) with
    | some (c, rest') => .char c :: symbolsLoop fuel rest'
    | none => .stray b :: symbolsLoop fuel rest

/-- The characters and stray bytes of a byte string. -/
def symbols (s : List UInt8) : List Symbol := symbolsLoop s.length s

/-- `utf8.ValidString`. -/
def validString (s : List UInt8) : Bool :=
  (symbols s).all fun
    | .char _ => true
    | .stray _ => false

/-- The text as symbols. -/
def chars (text : List Char) : List Symbol := text.map .char

/-! ## One character -/

/-- A property of all bytes by evaluation. -/
theorem forall_byte {P : UInt8 → Prop} (h : ∀ n < 256, P (.ofNat n)) (b : UInt8) : P b := by
  have hb := h b.toNat b.toNat_lt
  rwa [UInt8.ofNat_toNat] at hb

variable {n : Nat}

theorem toNat_ofNat (h : n < 256) : (UInt8.ofNat n).toNat = n := by
  simp [UInt8.toNat_ofNat', Nat.mod_eq_of_lt h]

variable {b : UInt8} {s rest : List UInt8} {k high least : Nat}

theorem ofNat_eq (h : n = b.toNat) : UInt8.ofNat n = b := by
  subst h
  simp

theorem toNat_lt (c : Char) : c.toNat < 0x110000 := by
  rcases c.valid with h | ⟨-, h⟩
  · exact Nat.lt_trans h (by decide)
  · exact h

theorem toNat_contByte (n : Nat) : (contByte n).toNat = 0x80 + n % 64 := toNat_ofNat (by omega)

theorem contByte_eq (h : 0x80 + n % 64 = b.toNat) : contByte n = b := ofNat_eq h

theorem isCont_contByte (n : Nat) : isCont (contByte n) = true := by
  simp only [isCont, toNat_contByte, Bool.and_eq_true, decide_eq_true_eq]
  omega

/-- A leading byte with the continuation bytes it announces. -/
theorem decodeRune_lead {conts rest : List UInt8} {c : Char} (hb : 0x80 ≤ b.toNat)
    (hann : announces b = some (k, high, least)) (hlen : conts.length = k) (hconts : ∀ x ∈ conts, isCont x = true)
    (hleast : least ≤ c.toNat) (hcollect : collect high conts = c.toNat) :
    decodeRune (b :: (conts ++ rest)) = some (c, rest) := by
  have htake : (conts ++ rest).take k = conts := by rw [← hlen, take_left]
  have hdrop : (conts ++ rest).drop k = rest := by rw [← hlen, drop_left]
  have hall : conts.all isCont = true := all_eq_true.mpr hconts
  rw [decodeRune, if_neg (by omega), hann]
  simp only [htake, hdrop, hcollect]
  rw [if_pos ⟨hlen, hall, hleast, c.valid⟩, Char.ofNat_toNat]

theorem decodeRune_append (c : Char) (rest : List UInt8) : decodeRune (encodeRune c ++ rest) = some (c, rest) := by
  have hlt := toNat_lt c
  rw [encodeRune]
  split_ifs with h₁ h₂ h₃
  · have hb : (UInt8.ofNat c.toNat).toNat = c.toNat := toNat_ofNat (by omega)
    rw [singleton_append, decodeRune, if_pos (by omega), hb, Char.ofNat_toNat]
  · have hb : (UInt8.ofNat (0xC0 + c.toNat / 64)).toNat = 0xC0 + c.toNat / 64 := toNat_ofNat (by omega)
    refine @decodeRune_lead _ 1 (c.toNat / 64) 0x80 [_] rest c (by omega) ?_ rfl ?_ (by omega) ?_
    · rw [announces, hb, if_pos (by omega), Nat.add_sub_cancel_left]
    · simp [isCont_contByte]
    · simp only [collect, foldl_cons, foldl_nil, toNat_contByte]
      omega
  · have hb : (UInt8.ofNat (0xE0 + c.toNat / 4096)).toNat = 0xE0 + c.toNat / 4096 := toNat_ofNat (by omega)
    refine @decodeRune_lead _ 2 (c.toNat / 4096) 0x800 [_, _] rest c (by omega) ?_ rfl ?_ (by omega) ?_
    · rw [announces, hb, if_neg (by omega), if_pos (by omega), Nat.add_sub_cancel_left]
    · simp [isCont_contByte]
    · simp only [collect, foldl_cons, foldl_nil, toNat_contByte]
      omega
  · have hb : (UInt8.ofNat (0xF0 + c.toNat / 262144)).toNat = 0xF0 + c.toNat / 262144 := toNat_ofNat (by omega)
    refine @decodeRune_lead _ 3 (c.toNat / 262144) 0x10000 [_, _, _] rest c (by omega) ?_ rfl ?_ (by omega) ?_
    · rw [announces, hb, if_neg (by omega), if_neg (by omega), if_pos (by omega), Nat.add_sub_cancel_left]
    · simp [isCont_contByte]
    · simp only [collect, foldl_cons, foldl_nil, toNat_contByte]
      omega

theorem toNat_ofNat_char (h : n.isValidChar) : (Char.ofNat n).toNat = n := by
  rw [Char.ofNat, dif_pos h]
  rfl

theorem isCont_iff : isCont b = true ↔ 0x80 ≤ b.toNat ∧ b.toNat < 0xC0 := by simp [isCont]

theorem announces_eq_some (h : announces b = some (k, high, least)) :
    (k = 1 ∧ b.toNat = 0xC0 + high ∧ high < 32 ∧ least = 0x80) ∨
      (k = 2 ∧ b.toNat = 0xE0 + high ∧ high < 16 ∧ least = 0x800) ∨
      (k = 3 ∧ b.toNat = 0xF0 + high ∧ high < 8 ∧ least = 0x10000) := by
  simp only [announces] at h
  split_ifs at h <;> simp only [Option.some.injEq, Prod.mk.injEq] at h <;> omega

theorem eq_of_decodeRune {c : Char} (h : decodeRune s = some (c, rest)) : s = encodeRune c ++ rest := by
  cases s with
  | nil => simp [decodeRune] at h
  | cons b t =>
    rw [decodeRune] at h
    split at h
    · rename_i hascii
      obtain ⟨rfl, rfl⟩ := h
      have hvalid : b.toNat.isValidChar := .inl (by omega)
      rw [encodeRune, toNat_ofNat_char hvalid, if_pos hascii]
      simp
    · rename_i hhigh
      split at h
      · simp at h
      · rename_i k high least hann
        dsimp only at h
        split at h
        · rename_i hgood
          obtain ⟨hlen, hconts, hleast, hvalid⟩ := hgood
          simp only [Option.some.injEq, Prod.mk.injEq] at h
          obtain ⟨rfl, rfl⟩ := h
          have hall := all_eq_true.mp hconts
          have hsplit := (take_append_drop k t).symm
          rw [encodeRune, toNat_ofNat_char hvalid]
          generalize t.take k = conts at *
          rcases announces_eq_some hann with ⟨rfl, hb, hhi, rfl⟩ | ⟨rfl, hb, hhi, rfl⟩ | ⟨rfl, hb, hhi, rfl⟩
          · obtain ⟨x, rfl⟩ := length_eq_one_iff.mp hlen
            have hx := isCont_iff.mp (hall x (by simp))
            have hn : collect high [x] = high * 64 + (x.toNat - 0x80) := rfl
            generalize collect high [x] = n at *
            rw [if_neg (by omega), if_pos (by omega), ofNat_eq (show _ = b.toNat by omega),
              contByte_eq (show _ = x.toNat by omega)]
            exact congrArg (b :: ·) hsplit
          · obtain ⟨x, y, rfl⟩ := length_eq_two.mp hlen
            have hx := isCont_iff.mp (hall x (by simp))
            have hy := isCont_iff.mp (hall y (by simp))
            have hn : collect high [x, y] = (high * 64 + (x.toNat - 0x80)) * 64 + (y.toNat - 0x80) := rfl
            generalize collect high [x, y] = n at *
            rw [if_neg (by omega), if_neg (by omega), if_pos (by omega), ofNat_eq (show _ = b.toNat by omega),
              contByte_eq (show _ = x.toNat by omega), contByte_eq (show _ = y.toNat by omega)]
            exact congrArg (b :: ·) hsplit
          · obtain ⟨x, y, z, rfl⟩ := length_eq_three.mp hlen
            have hx := isCont_iff.mp (hall x (by simp))
            have hy := isCont_iff.mp (hall y (by simp))
            have hz := isCont_iff.mp (hall z (by simp))
            have hn : collect high [x, y, z] =
                ((high * 64 + (x.toNat - 0x80)) * 64 + (y.toNat - 0x80)) * 64 + (z.toNat - 0x80) := rfl
            generalize collect high [x, y, z] = n at *
            rw [if_neg (by omega), if_neg (by omega), if_neg (by omega), ofNat_eq (show _ = b.toNat by omega),
              contByte_eq (show _ = x.toNat by omega), contByte_eq (show _ = y.toNat by omega),
              contByte_eq (show _ = z.toNat by omega)]
            exact congrArg (b :: ·) hsplit
        · simp at h

/-! ## Symbols -/

theorem encodeRune_ne_nil (c : Char) : encodeRune c ≠ [] := by
  rw [encodeRune]
  split_ifs <;> exact cons_ne_nil _ _

theorem length_of_decodeRune {c : Char} (h : decodeRune s = some (c, rest)) : rest.length < s.length := by
  have hlen := congrArg length (eq_of_decodeRune h)
  have hpos := length_pos_iff.mpr (encodeRune_ne_nil c)
  rw [length_append] at hlen
  omega

/-- More fuel than bytes changes nothing. -/
theorem symbolsLoop_eq : ∀ {fuel fuel' : Nat} {s : List UInt8}, s.length ≤ fuel → s.length ≤ fuel' →
    symbolsLoop fuel s = symbolsLoop fuel' s
  | 0, 0, _, _, _ => rfl
  | 0, _ + 1, [], _, _ => rfl
  | _ + 1, 0, [], _, _ => rfl
  | _ + 1, _ + 1, [], _, _ => rfl
  | fuel + 1, fuel' + 1, b :: rest, h, h' => by
    rw [length_cons] at h h'
    rw [symbolsLoop, symbolsLoop]
    cases hdec : decodeRune (b :: rest) with
    | none =>
      rw [symbolsLoop_eq (show rest.length ≤ fuel by omega) (show rest.length ≤ fuel' by omega)]
    | some p =>
      obtain ⟨c, rest'⟩ := p
      have hlt := length_of_decodeRune hdec
      rw [length_cons] at hlt
      dsimp only
      rw [symbolsLoop_eq (show rest'.length ≤ fuel by omega) (show rest'.length ≤ fuel' by omega)]

theorem symbols_encodeRune (c : Char) (rest : List UInt8) :
    symbols (encodeRune c ++ rest) = .char c :: symbols rest := by
  obtain ⟨b, t, hcons⟩ := exists_cons_of_ne_nil (encodeRune_ne_nil c)
  have hdec := decodeRune_append c rest
  have hlen : rest.length ≤ (t ++ rest).length := by rw [length_append]; omega
  rw [hcons, cons_append] at hdec ⊢
  rw [symbols, length_cons, symbolsLoop, hdec]
  dsimp only
  rw [symbolsLoop_eq hlen (le_refl _), symbols]

theorem symbols_stray {rest : List UInt8} (h : decodeRune (b :: rest) = none) :
    symbols (b :: rest) = .stray b :: symbols rest := by
  rw [symbols, length_cons, symbolsLoop, h]
  rfl

theorem bytes_nil : bytes [] = [] := rfl

theorem bytes_char (c : Char) (xs : List Symbol) : bytes (.char c :: xs) = encodeRune c ++ bytes xs := rfl

theorem bytes_stray (b : UInt8) (xs : List Symbol) : bytes (.stray b :: xs) = b :: bytes xs := rfl

theorem bytes_append (xs ys : List Symbol) : bytes (xs ++ ys) = bytes xs ++ bytes ys := flatMap_append

/-- Every stray byte begins no character. -/
def Stable : List Symbol → Prop
  | [] => True
  | .char _ :: xs => Stable xs
  | .stray b :: xs => decodeRune (b :: bytes xs) = none ∧ Stable xs

theorem symbols_bytes : ∀ {xs : List Symbol}, Stable xs → symbols (bytes xs) = xs
  | [], _ => rfl
  | .char c :: xs, h => by
    have ih : symbols (bytes xs) = xs := symbols_bytes h
    rw [bytes_char, symbols_encodeRune, ih]
  | .stray b :: xs, h => by rw [bytes_stray, symbols_stray h.1, symbols_bytes h.2]

/-- A byte string is empty, begins with a character or with a stray byte. -/
theorem symbols_induction {P : List UInt8 → Prop} (nil : P []) (char : ∀ c rest, P rest → P (encodeRune c ++ rest))
    (stray : ∀ b rest, decodeRune (b :: rest) = none → P rest → P (b :: rest)) (s : List UInt8) : P s := by
  induction hlen : s.length using Nat.strongRecOn generalizing s with
  | ind n ih =>
    subst hlen
    cases s with
    | nil => exact nil
    | cons b rest =>
      cases hdec : decodeRune (b :: rest) with
      | none => exact stray b rest hdec (ih _ (by simp) rest rfl)
      | some p =>
        obtain ⟨c, rest'⟩ := p
        rw [eq_of_decodeRune hdec]
        exact char c rest' (ih _ (length_of_decodeRune hdec) rest' rfl)

theorem bytes_symbols (s : List UInt8) : bytes (symbols s) = s := by
  induction s using symbols_induction with
  | nil => rfl
  | char c rest ih => rw [symbols_encodeRune, bytes_char, ih]
  | stray b rest h ih => rw [symbols_stray h, bytes_stray, ih]

theorem stable_symbols (s : List UInt8) : Stable (symbols s) := by
  induction s using symbols_induction with
  | nil => exact trivial
  | char c rest ih =>
    rw [symbols_encodeRune]
    exact ih
  | stray b rest h ih =>
    rw [symbols_stray h]
    exact ⟨by rwa [bytes_symbols], ih⟩

theorem eq_char_of_rune {x : Symbol} {c : Char} (hc : '�' ≠ c) (h : x.rune = c) : x = .char c := by
  cases x with
  | char d => exact congrArg _ h
  | stray b => exact absurd h hc

/-! ## Stray bytes only see continuation bytes -/

theorem take_eq_take_takeWhile {p : UInt8 → Bool} : ∀ {k : Nat} {t : List UInt8}, (t.take k).all p = true →
    t.take k = (t.takeWhile p).take k
  | 0, _, _ => by simp
  | _ + 1, [], _ => rfl
  | k + 1, b :: t, h => by
    rw [take_succ_cons, all_cons, Bool.and_eq_true] at h
    rw [take_succ_cons, takeWhile_cons_of_pos h.1, take_succ_cons, take_eq_take_takeWhile h.2]

/-- Whether a byte begins a character depends on the continuation bytes behind it. -/
theorem decodeRune_isNone_congr {t t' : List UInt8} (h : t.takeWhile isCont = t'.takeWhile isCont)
    (hnone : decodeRune (b :: t) = none) : decodeRune (b :: t') = none := by
  rw [decodeRune] at hnone ⊢
  split at hnone
  · simp at hnone
  · rename_i hhigh
    rw [if_neg hhigh]
    cases hann : announces b with
    | none => rfl
    | some p =>
      obtain ⟨k, high, least⟩ := p
      rw [hann] at hnone
      dsimp only at hnone ⊢
      by_contra hsome
      split at hsome
      · rename_i hgood
        -- the same continuation bytes stand behind it in the other string
        have htake : t'.take k = (t.takeWhile isCont).take k := by rw [h, ← take_eq_take_takeWhile hgood.2.1]
        have hsame : (t.takeWhile isCont).take k = t.take k := by
          have hlen : k ≤ (t.takeWhile isCont).length := by
            have := hgood.1
            rw [htake, length_take] at this
            omega
          conv_rhs => rw [← @List.takeWhile_append_dropWhile _ isCont t, take_append_of_le_length hlen]
        rw [htake, hsame] at hgood
        simp [hgood] at hnone
      · exact hsome rfl

theorem takeWhile_encodeRune (c : Char) (rest : List UInt8) : (encodeRune c ++ rest).takeWhile isCont = [] := by
  have hlt := toNat_lt c
  have hlead : ∀ {n : Nat} (t : List UInt8), n < 256 → n < 0x80 ∨ 0xC0 ≤ n →
      (UInt8.ofNat n :: t).takeWhile isCont = [] := by
    intro n t hn hrange
    refine takeWhile_cons_of_neg ?_
    rw [isCont_iff, toNat_ofNat hn]
    omega
  rw [encodeRune]
  split_ifs
  · exact hlead _ (by omega) (by omega)
  · exact hlead _ (by omega) (by omega)
  · exact hlead _ (by omega) (by omega)
  · exact hlead _ (by omega) (by omega)

/-- Only characters. -/
def Valid (xs : List Symbol) : Prop := ∀ x ∈ xs, ∃ c, x = .char c

theorem Valid.stable : ∀ {xs : List Symbol}, Valid xs → Stable xs
  | [], _ => trivial
  | .char _ :: xs, h => @Valid.stable xs fun x hx => h x (mem_cons_of_mem _ hx)
  | .stray b :: _, h => by
    obtain ⟨c, hc⟩ := h (.stray b) mem_cons_self
    exact Symbol.noConfusion hc

theorem Valid.takeWhile : ∀ {xs : List Symbol}, Valid xs → (bytes xs).takeWhile isCont = []
  | [], _ => rfl
  | .char c :: xs, _ => by rw [bytes_char, takeWhile_encodeRune]
  | .stray b :: _, h => by
    obtain ⟨c, hc⟩ := h (.stray b) mem_cons_self
    exact Symbol.noConfusion hc

theorem Valid.append_stable : ∀ {xs ys : List Symbol}, Valid xs → Stable ys → Stable (xs ++ ys)
  | [], _, _, h => h
  | .char _ :: xs, ys, hxs, h => @Valid.append_stable xs ys (fun x hx => hxs x (mem_cons_of_mem _ hx)) h
  | .stray b :: _, _, hxs, _ => by
    obtain ⟨c, hc⟩ := hxs (.stray b) mem_cons_self
    exact Symbol.noConfusion hc

variable {zs : List Symbol}

section

variable {f : Symbol → List Symbol}

/-- Characters are replaced by characters, stray bytes are kept. -/
structure Replaces (f : Symbol → List Symbol) : Prop where
  char : ∀ c, Valid (f (.char c)) ∧ f (.char c) ≠ []
  stray : ∀ b, f (.stray b) = [.stray b]

theorem takeWhile_flatMap (hf : Replaces f) (hzs : Valid zs) : ∀ xs : List Symbol,
    (bytes (xs.flatMap f ++ zs)).takeWhile isCont = (bytes xs).takeWhile isCont
  | [] => hzs.takeWhile
  | .char c :: xs => by
    obtain ⟨hvalid, hne⟩ := hf.char c
    obtain ⟨x, t, hcons⟩ := exists_cons_of_ne_nil hne
    obtain ⟨d, rfl⟩ := hvalid x (by rw [hcons]; exact mem_cons_self)
    rw [flatMap_cons, hcons, append_assoc, cons_append, bytes_char, takeWhile_encodeRune, bytes_char,
      takeWhile_encodeRune]
  | .stray b :: xs => by
    have ih := takeWhile_flatMap hf hzs xs
    rw [flatMap_cons, hf.stray, append_assoc, singleton_append, bytes_stray, bytes_stray, takeWhile_cons,
      takeWhile_cons, ih]

theorem Stable.flatMap (hf : Replaces f) (hzs : Valid zs) :
    ∀ {xs : List Symbol}, Stable xs → Stable (xs.flatMap f ++ zs)
  | [], _ => hzs.stable
  | .char c :: xs, h => by
    have ih : Stable (xs.flatMap f ++ zs) := Stable.flatMap hf hzs h
    rw [flatMap_cons, append_assoc]
    exact (hf.char c).1.append_stable ih
  | .stray b :: xs, h => by
    rw [flatMap_cons, hf.stray, append_assoc, singleton_append]
    exact ⟨decodeRune_isNone_congr (takeWhile_flatMap hf hzs xs).symm h.1, Stable.flatMap hf hzs h.2⟩

end

theorem symbols_chars (text : List Char) (s : List UInt8) :
    symbols (bytes (chars text) ++ s) = chars text ++ symbols s := by
  induction text with
  | nil => rfl
  | cons c text ih =>
    change symbols (encodeRune c ++ bytes (chars text) ++ s) = .char c :: (chars text ++ symbols s)
    rw [append_assoc, symbols_encodeRune, ih]

theorem valid_chars (text : List Char) : Valid (chars text) := by
  intro x hx
  obtain ⟨c, -, rfl⟩ := mem_map.mp hx
  exact ⟨c, rfl⟩

theorem takeWhile_append (hzs : Valid zs) (xs : List Symbol) :
    (bytes (xs ++ zs)).takeWhile isCont = (bytes xs).takeWhile isCont := by
  have hf : Replaces fun x => [x] := ⟨fun c => ⟨valid_chars [c], cons_ne_nil _ _⟩, fun _ => rfl⟩
  have h := takeWhile_flatMap hf hzs xs
  rwa [flatMap_singleton'] at h

theorem Stable.of_append (hzs : Valid zs) : ∀ {xs : List Symbol}, Stable (xs ++ zs) → Stable xs
  | [], _ => trivial
  | .char _ :: xs, h => @Stable.of_append hzs xs h
  | .stray _ :: xs, h => ⟨decodeRune_isNone_congr (takeWhile_append hzs xs) h.1, Stable.of_append hzs h.2⟩

/-- A character behind any bytes is read as such. -/
theorem symbols_append_char (s : List UInt8) (c : Char) (t : List UInt8) :
    symbols (s ++ (encodeRune c ++ t)) = symbols s ++ .char c :: symbols t := by
  have hcont : ∀ xs : List Symbol, (bytes (xs ++ .char c :: symbols t)).takeWhile isCont =
      (bytes xs).takeWhile isCont := by
    intro xs
    induction xs with
    | nil => rw [nil_append, bytes_char, takeWhile_encodeRune, bytes_nil, takeWhile_nil]
    | cons x xs ih =>
      cases x with
      | char d => rw [cons_append, bytes_char, bytes_char, takeWhile_encodeRune, takeWhile_encodeRune]
      | stray b => rw [cons_append, bytes_stray, bytes_stray, takeWhile_cons, takeWhile_cons, ih]
  have hstable : ∀ {xs : List Symbol}, Stable xs → Stable (xs ++ .char c :: symbols t) := by
    intro xs
    induction xs with
    | nil => exact fun _ => stable_symbols t
    | cons x xs ih =>
      cases x with
      | char d => exact ih
      | stray b => exact fun h => ⟨decodeRune_isNone_congr (hcont xs).symm h.1, ih h.2⟩
  have hbytes : s ++ (encodeRune c ++ t) = bytes (symbols s ++ .char c :: symbols t) := by
    rw [bytes_append, bytes_char, bytes_symbols, bytes_symbols]
  rw [hbytes, symbols_bytes (hstable (stable_symbols s))]

/-- ASCII bytes stand for themselves only. -/
theorem toNat_of_mem_encodeRune {c : Char} (h : b ∈ encodeRune c) (hb : b.toNat < 0x80) : b.toNat = c.toNat := by
  have hlt := toNat_lt c
  have hcont : ∀ n, b ≠ contByte n := by
    rintro n rfl
    rw [toNat_contByte] at hb
    omega
  have hlead : ∀ n, 0x80 ≤ n → n < 0x100 → b ≠ .ofNat n := by
    rintro n hge hlt rfl
    rw [toNat_ofNat hlt] at hb
    omega
  rw [encodeRune] at h
  split_ifs at h with h1 h2 h3 <;> simp only [mem_cons, not_mem_nil, or_false] at h
  · rw [h, toNat_ofNat (by omega)]
  · exact absurd h (not_or.mpr ⟨hlead _ (by omega) (by omega), hcont _⟩)
  · exact absurd h (not_or.mpr ⟨hlead _ (by omega) (by omega), not_or.mpr ⟨hcont _, hcont _⟩⟩)
  · exact absurd h (not_or.mpr ⟨hlead _ (by omega) (by omega), not_or.mpr ⟨hcont _, not_or.mpr ⟨hcont _, hcont _⟩⟩⟩)

theorem encodeRune_injective {c d : Char} (h : encodeRune c = encodeRune d) : c = d := by
  have hc := decodeRune_append c []
  rw [h, decodeRune_append] at hc
  cases hc
  rfl

end ZClone.Utf8
