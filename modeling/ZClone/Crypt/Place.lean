import ZClone.Crypt.Blocks

/-!
# The part of an encrypted file that a seek reads

- `Holds` is the contract of the object under a decrypter: it holds a file, and opening or seeking it gives a window of
  it.
- `calculateUnderlying_spec` and `underlyingLimit_spec` say which window a seek asks for; where the limit overflows it
  is negative, which is none.
- `window_spec` says that the window has the blocks that are needed.
-/

namespace ZClone.Crypt

open Reader List

/-- The bytes up to a limit; a negative limit is none. -/
def limited (limit : Int) (l : List UInt8) : List UInt8 := if limit < 0 then l else l.take limit.toNat

/-- The bytes of a file from an offset on, up to a limit. -/
def window (file : List UInt8) (offset limit : Int) : List UInt8 := limited limit (file.drop offset.toNat)

theorem neg_or_exists_nat (limit : Int) : limit < 0 ∨ ∃ l : Nat, limit = l := by
  obtain h | h := lt_or_ge limit 0
  · exact .inl h
  · exact .inr ⟨limit.toNat, by omega⟩

theorem limited_of_neg {limit : Int} (h : limit < 0) (l : List UInt8) : limited limit l = l := if_pos h

theorem limited_of_nonneg (limit : Nat) (l : List UInt8) : limited limit l = l.take limit := by
  rw [limited, if_neg (by omega), Int.toNat_natCast]

@[simp] theorem limited_zero (l : List UInt8) : limited 0 l = [] := rfl

@[simp] theorem limited_nil (limit : Int) : limited limit [] = [] := by
  rw [limited, take_nil, ite_self]

/-- The object that `reopen` opens holds the file: its size is an `int64`, and opening or seeking it at an offset within
gives a reader of the window. -/
structure Holds {σ : Type} (u : Underlying σ) (reopen : Int → Int → Except Err σ) (file : List UInt8)
    (Left : σ → List UInt8 → Prop) (idle : σ → Nat) : Prop where
  fits : file.length < 2 ^ 63
  honest : Honest .eof u.read Left idle u.patience
  opens : ∀ {offset limit : Int}, 0 ≤ offset → offset ≤ file.length →
    ∃ s, reopen offset limit = .ok s ∧ Left s (window file offset limit)
  seeks : ∀ {s todo seek} {offset limit : Int}, Left s todo → u.rangeSeek s = some seek → 0 ≤ offset →
    offset ≤ file.length → (seek offset limit).1 = none ∧ Left (seek offset limit).2 (window file offset limit)

/-! ## The place of a seek -/

/-- Where a seek goes: to the start of the block of the offset. -/
theorem calculateUnderlying_spec {offset : Nat} (limit : Int)
    (hfits : fileHeaderSize + offset / blockDataSize * blockSize < 2 ^ 63) :
    (calculateUnderlying offset limit).blocks = (offset / blockDataSize : Nat) ∧
      (calculateUnderlying offset limit).discard = (offset % blockDataSize : Nat) ∧
      (calculateUnderlying offset limit).underlyingOffset =
      (fileHeaderSize + offset / blockDataSize * blockSize : Nat) := by
  have hblocks : (offset : Int).tdiv blockDataSize = (offset / blockDataSize : Nat) :=
    Int.ofNat_tdiv offset blockDataSize
  have hdiscard : (offset : Int).tmod blockDataSize = (offset % blockDataSize : Nat) :=
    (Int.ofNat_tmod offset blockDataSize).symm
  have hoffset : int64 (fileHeaderSize + (offset : Int).tdiv blockDataSize * blockSize) =
      (fileHeaderSize + offset / blockDataSize * blockSize : Nat) := by
    rw [hblocks, ← Nat.cast_mul, ← Nat.cast_add]
    generalize fileHeaderSize + offset / blockDataSize * blockSize = place at hfits ⊢
    exact int64_of_lt (by omega) (by omega)
  rw [calculateUnderlying]
  by_cases hneg : limit < 0
  · rw [if_pos hneg]
    refine ⟨hblocks, hdiscard, ?_⟩
    rw [hoffset]
  · rw [if_neg hneg]
    refine ⟨hblocks, hdiscard, ?_⟩
    dsimp only
    rw [hoffset]

/-- The number of blocks for some bytes, as the code rounds it up. -/
theorem extraBlocks_eq (bytes : Nat) :
    (if (0 : Int) < bytes then
      (bytes : Int).tdiv blockDataSize + if (bytes : Int).tmod blockDataSize ≠ 0 then 1 else 0
    else 0) = ((bytes + (blockDataSize - 1)) / blockDataSize : Nat) := by
  rw [← Int.ofNat_tdiv, ← Int.ofNat_tmod, show blockDataSize = 65536 from rfl]
  split_ifs with hpos hleft <;> omega

/-- How much a seek with a limit asks for: as many blocks as hold the bytes up to the limit, unless that overflows. -/
theorem underlyingLimit_spec {offset limit : Nat} (hlimit : limit < 2 ^ 63) :
    ∃ b : Nat, 0 < b ∧ offset % blockDataSize + limit ≤ b * blockDataSize ∧ b * blockSize < 2 ^ 63 + 2 ^ 61 ∧
      (calculateUnderlying offset limit).underlyingLimit = int64 (b * blockSize : Nat) := by
  have hdiscard : (offset : Int).tmod blockDataSize = (offset % blockDataSize : Nat) :=
    (Int.ofNat_tmod offset blockDataSize).symm
  have hlt : offset % blockDataSize < blockDataSize := Nat.mod_lt _ blockDataSize_pos
  have hdata : blockDataSize = 65536 := rfl
  have hsize : blockSize = 65552 := rfl
  generalize offset % blockDataSize = d at hdiscard hlt
  have hbytes : int64 (limit - (blockDataSize - (d : Nat))) = limit - (blockDataSize - (d : Nat) : Int) :=
    int64_of_lt (by omega) (by omega)
  rw [calculateUnderlying]
  dsimp only
  rw [if_neg (by omega), hdiscard, hbytes]
  obtain hle | hgt := Nat.le_total limit (blockDataSize - d)
  · -- the first block is enough
    refine ⟨1, Nat.one_pos, by omega, by omega, ?_⟩
    rw [if_neg (by omega)]
    rfl
  · obtain ⟨bytes, rfl⟩ : ∃ bytes, limit = bytes + (blockDataSize - d) := ⟨_, (Nat.sub_add_cancel hgt).symm⟩
    have hcast : ((bytes + (blockDataSize - d) : Nat) : Int) - (blockDataSize - (d : Nat)) = (bytes : Nat) := by omega
    refine ⟨1 + (bytes + (blockDataSize - 1)) / blockDataSize, Nat.add_pos_left Nat.one_pos _, ?_, ?_, ?_⟩
    · rw [hdata] at *
      omega
    · rw [hdata, hsize] at *
      omega
    · rw [hcast, extraBlocks_eq]
      push_cast
      rfl

/-! ## Windows of an encrypted file -/

section Window

variable {c : Cipher} {n : Nonce} {plaintext : List UInt8}

theorem length_header (n : Nonce) : (fileMagicBytes ++ n.bytes).length = fileHeaderSize := by
  rw [length_append, n.length_eq]
  rfl

theorem length_encryption : (encryption c n plaintext).length = fileHeaderSize + (sealBlocks c n plaintext).length := by
  rw [encryption, length_append, length_header]

/-- The block of an offset within the file is within the encrypted file. -/
theorem blockStart_le {offset : Nat} (h : offset ≤ plaintext.length) :
    fileHeaderSize + offset / blockDataSize * blockSize ≤ (encryption c n plaintext).length := by
  rw [length_encryption]
  have hle := Nat.div_mul_le_self offset blockDataSize
  exact Nat.add_le_add_left (le_length_sealBlocks _ (by omega)) _

theorem drop_encryption {k : Nat} (h : k * blockDataSize ≤ plaintext.length) :
    (encryption c n plaintext).drop (fileHeaderSize + k * blockSize) =
      sealBlocks c (Nonce.increment^[k] n) (plaintext.drop (k * blockDataSize)) := by
  rw [← drop_drop, encryption, ← length_header n, drop_left, drop_sealBlocks k h]

/-- **No nonce is used twice.** Each block of an encrypted file is sealed with a nonce of its own, which a reader gets
with `add`. -/
theorem block_nonces : ∃ nonce : Nat → Nonce,
    (∀ k, k * blockDataSize < plaintext.length →
      ((encryption c n plaintext).drop (fileHeaderSize + k * blockSize)).take blockSize =
      c.sealBox (nonce k) ((plaintext.drop (k * blockDataSize)).take blockDataSize)) ∧
    (∀ x : UInt64, n.add x = nonce x.toNat) ∧ ∀ i < 2 ^ 192, ∀ j < 2 ^ 192, nonce i = nonce j → i = j := by
  refine ⟨fun k => Nonce.increment^[k] n, fun k hk => ?_, add_eq_iterate n, fun i hi j hj h => ?_⟩
  · rw [drop_encryption hk.le]
    exact take_block (drop_eq_nil_iff.not.mpr hk.not_ge)
  · have hvalue := congrArg (fun n : Nonce => value n.bytes) h
    simp only [value_iterate_increment] at hvalue
    exact (Nat.ModEq.add_left_cancel' _ hvalue).eq_of_lt_of_lt hi hj

/-- Blocks, perhaps after a header, under the limit for `b` of them: a limit that overflows is none. -/
theorem limited_sealBlocks {b : Nat} (hb : b * blockSize < 2 ^ 63 + 2 ^ 61) {header : List UInt8}
    (hheader : header.length ≤ fileHeaderSize) (data : List UInt8) :
    ∃ data', (data' = data ∨ data' = data.take (b * blockDataSize)) ∧
      limited (int64 (header.length + int64 (b * blockSize : Nat))) (header ++ sealBlocks c n data) =
        header ++ sealBlocks c n data' := by
  have htake : (header ++ sealBlocks c n data).take (header.length + b * blockSize) =
      header ++ sealBlocks c n (data.take (b * blockDataSize)) := by
    rw [take_length_add_append, take_sealBlocks]
  have hsmall : fileHeaderSize = 32 := rfl
  generalize b * blockSize = size at hb htake
  obtain hlt | hle := Nat.lt_or_ge size (2 ^ 63)
  · rw [int64_of_lt (x := (size : Nat)) (by omega) (by omega)]
    obtain hlt' | hle' := Nat.lt_or_ge (header.length + size) (2 ^ 63)
    · refine ⟨_, .inr rfl, ?_⟩
      rw [int64_of_lt (by omega) (by omega), ← Nat.cast_add, limited_of_nonneg, htake]
    · have hneg : int64 (header.length + size : Int) < -2 ^ 62 := int64_of_le (by omega) (by omega)
      exact ⟨data, .inl rfl, limited_of_neg (by omega) _⟩
  · have hneg : int64 (size : Nat) < -2 ^ 62 := int64_of_le (by omega) (by omega)
    have hlow := le_int64 (size : Nat)
    refine ⟨data, .inl rfl, limited_of_neg ?_ _⟩
    rw [int64_of_lt (by omega) (by omega)]
    omega

/-- The data that a seek decrypts: all from the start of a block on, or enough of it for the limit. -/
def Enough (limit : Int) (d : Nat) (data data' : List UInt8) : Prop :=
  limited limit (data'.drop d) = limited limit (data.drop d) ∧
    (d ≤ data.length → d ≤ (data'.take blockDataSize).length) ∧ (data' = [] ↔ data = [])

theorem Enough.refl (limit : Int) {d : Nat} (hd : d < blockDataSize) (data : List UInt8) : Enough limit d data data :=
  ⟨rfl, fun h => by rw [length_take]; omega, Iff.rfl⟩

theorem Enough.take {limit d b : Nat} (hd : d < blockDataSize) (hb : 0 < b) (hle : d + limit ≤ b * blockDataSize)
    (data : List UInt8) : Enough limit d data (data.take (b * blockDataSize)) := by
  have hblock : blockDataSize ≤ b * blockDataSize := Nat.le_mul_of_pos_left _ hb
  refine ⟨?_, fun h => ?_, ?_⟩
  · rw [limited_of_nonneg, limited_of_nonneg, drop_take, take_take, Nat.min_eq_left (by omega)]
  · rw [length_take, length_take]
    omega
  · rw [take_eq_nil_iff]
    exact or_iff_right (by omega)

/-- The window that a seek asks for: the blocks from that of the offset on, enough for the limit. -/
theorem window_spec {offset : Nat} {limit : Int} (hoffset : offset ≤ plaintext.length) (hlimit : limit < 2 ^ 63)
    (hfits : (encryption c n plaintext).length < 2 ^ 63) :
    ∃ data, Enough limit (offset % blockDataSize) (plaintext.drop (offset / blockDataSize * blockDataSize)) data ∧
      window (encryption c n plaintext) (calculateUnderlying offset limit).underlyingOffset
          (calculateUnderlying offset limit).underlyingLimit =
        sealBlocks c (Nonce.increment^[offset / blockDataSize] n) data := by
  have hstart := @blockStart_le c n plaintext offset hoffset
  have hmod := Nat.mod_lt offset blockDataSize_pos
  have hdiv := Nat.div_mul_le_self offset blockDataSize
  obtain ⟨-, -, hplace⟩ := calculateUnderlying_spec limit (hstart.trans_lt hfits)
  rw [window, hplace, Int.toNat_natCast, drop_encryption (by omega)]
  obtain hneg | ⟨l, rfl⟩ := neg_or_exists_nat limit
  · refine ⟨_, Enough.refl limit hmod _, limited_of_neg ?_ _⟩
    rw [calculateUnderlying, if_pos hneg]
    exact Int.negSucc_lt_zero 0
  · obtain ⟨b, hpos, hle, hsize, heq⟩ := @underlyingLimit_spec offset l (by omega)
    obtain ⟨data, hdata, hlimited⟩ := @limited_sealBlocks c (Nonce.increment^[offset / blockDataSize] n) b hsize []
      (Nat.zero_le _) (plaintext.drop (offset / blockDataSize * blockDataSize))
    refine ⟨data, ?_, ?_⟩
    · obtain rfl | rfl := hdata
      · exact Enough.refl _ hmod _
      · exact Enough.take hmod hpos hle _
    · have hsame : int64 (int64 (b * blockSize : Nat)) = int64 (b * blockSize : Nat) := Int.bmod_bmod
      rw [length_nil, Nat.cast_zero, Int.zero_add, hsame] at hlimited
      rw [heq]
      exact hlimited

/-- The same for the header and the first blocks, which are opened for an offset of zero. -/
theorem window_header {limit : Nat} (hlimit : limit < 2 ^ 63) : ∃ data, Enough limit 0 plaintext data ∧
      window (encryption c n plaintext) 0 (int64 (fileHeaderSize + (calculateUnderlying 0 limit).underlyingLimit)) =
        (fileMagicBytes ++ n.bytes) ++ sealBlocks c n data := by
  obtain ⟨b, hpos, hle, hsize, heq⟩ := @underlyingLimit_spec 0 limit hlimit
  obtain ⟨data, hdata, hlimited⟩ := @limited_sealBlocks c n b hsize (fileMagicBytes ++ n.bytes)
    (length_header n).le plaintext
  refine ⟨data, ?_, ?_⟩
  · obtain rfl | rfl := hdata
    · exact Enough.refl _ blockDataSize_pos _
    · exact Enough.take blockDataSize_pos hpos (by simpa using hle) _
  · rw [length_header] at hlimited
    rw [Nat.cast_zero] at heq
    rw [heq, window]
    exact hlimited

end Window

end ZClone.Crypt
