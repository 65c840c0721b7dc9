import ZClone.Crypt.RandomAccess

/-!
# The size of an encrypted file

- `encryptedSize` and `decryptedSize` compute with `int64`; `fullSize` is the size as a number.
- `encrypted_sizes`: the encrypter gives as many bytes as `encryptedSize` says, and `decryptedSize` is its inverse.
-/

namespace ZClone.Crypt

open Reader List

def encryptedSize (size : Int) : Int :=
  let blocks := size.tdiv blockDataSize
  let residue := size.tmod blockDataSize
  let encrypted := int64 (fileHeaderSize + int64 (blocks * (blockHeaderSize + blockDataSize)))
  if residue ≠ 0 then int64 (encrypted + (blockHeaderSize + residue)) else encrypted

def decryptedSize (size : Int) : Except Err Int :=
  let size := int64 (size - fileHeaderSize)
  if size < 0 then .error .encryptedFileTooShort
  else
    let blocks := size.tdiv blockSize
    let residue := size.tmod blockSize
    let decrypted := blocks * blockDataSize
    if residue ≠ 0 then
      let residue := residue - blockHeaderSize
      if residue ≤ 0 then .error .encryptedFileBadHeader else .ok (decrypted + residue)
    else .ok (decrypted + residue)

/-- The size of the encryption of `n` bytes. -/
def fullSize (n : Nat) : Nat :=
  fileHeaderSize + n / blockDataSize * blockSize + if n % blockDataSize = 0 then 0
    else blockHeaderSize + n % blockDataSize

theorem length_sealBlocks {c : Cipher} {nonce : Nonce} {data : List UInt8} :
    fileHeaderSize + (sealBlocks c nonce data).length = fullSize data.length := by
  -- the full blocks first, then what is left of the data
  have hle : data.length / blockDataSize * blockDataSize ≤ data.length := Nat.div_mul_le_self _ _
  have hblocks := le_length_sealBlocks (c := c) (n := nonce) _ hle
  have hdrop := congrArg length (drop_sealBlocks (c := c) (n := nonce) _ hle)
  have hmod := Nat.mod_add_div' data.length blockDataSize
  have hrest : (data.drop (data.length / blockDataSize * blockDataSize)).length = data.length % blockDataSize := by
    rw [length_drop]
    omega
  rw [length_drop] at hdrop
  rw [fullSize]
  by_cases hzero : data.length % blockDataSize = 0
  · rw [eq_nil_of_length_eq_zero (hrest.trans hzero), sealBlocks_nil, length_nil] at hdrop
    rw [if_pos hzero]
    omega
  · have hne : data.drop (data.length / blockDataSize * blockDataSize) ≠ [] := ne_nil_of_length_pos (by omega)
    have hlt := Nat.mod_lt data.length blockDataSize_pos
    rw [sealBlocks_short hne (by omega), c.length_sealBox, hrest] at hdrop
    rw [if_neg hzero]
    omega

theorem fullSize_eq (n : Nat) : fullSize n = 32 + n / 65536 * 65552 + if n % 65536 = 0 then 0 else 16 + n % 65536 := rfl

theorem encryptedSize_eq {n : Nat} (h : fullSize n < 2 ^ 63) : encryptedSize n = fullSize n := by
  have hsize : encryptedSize n =
      if ((n % 65536 : Nat) : Int) ≠ 0 then
        int64 (int64 (32 + int64 ((n / 65536 : Nat) * 65552)) + (16 + (n % 65536 : Nat)))
      else int64 (32 + int64 ((n / 65536 : Nat) * 65552)) := rfl
  rw [fullSize_eq] at h ⊢
  rw [hsize, int64_of_lt (x := (n / 65536 : Nat) * 65552) (by omega) (by omega),
    int64_of_lt (x := 32 + _) (by omega) (by omega)]
  by_cases hzero : n % 65536 = 0
  · rw [if_pos hzero, if_neg (by omega)]
    omega
  · rw [if_neg hzero] at h ⊢
    rw [if_pos (by omega), int64_of_lt (by omega) (by omega)]
    omega

/-- All sizes but those next to the least of the integers. -/
theorem decryptedSize_eq_ok {m k : Int} (hlow : -2 ^ 63 + 32 ≤ m) (hhigh : m < 2 ^ 63) :
    decryptedSize m = .ok k ↔ ∃ n : Nat, fullSize n = m ∧ k = n := by
  have hsize : int64 (m - fileHeaderSize) = m - 32 := int64_of_lt (x := m - 32) (by omega) (by omega)
  simp only [fullSize_eq]
  rw [decryptedSize, hsize]
  by_cases hneg : m - 32 < 0
  · rw [if_pos hneg]
    refine iff_of_false (by nofun) ?_
    rintro ⟨n, rfl, -⟩
    omega
  · obtain ⟨size, rfl⟩ : ∃ size : Nat, m = 32 + size := ⟨(m - 32).toNat, by omega⟩
    rw [if_neg hneg, add_sub_cancel_left]
    change (if ((size % 65552 : Nat) : Int) ≠ 0 then
      if ((size % 65552 : Nat) : Int) - 16 ≤ 0 then .error .encryptedFileBadHeader
      else .ok ((size / 65552 : Nat) * 65536 + ((size % 65552 : Nat) - 16))
      else .ok ((size / 65552 : Nat) * 65536 + (size % 65552 : Nat)) : Except Err Int) = .ok k ↔ _
    by_cases hzero : size % 65552 = 0
    · rw [if_neg (by omega), Except.ok.injEq]
      constructor
      · rintro rfl
        exact ⟨size / 65552 * 65536, by rw [if_pos (by omega)]; omega, by omega⟩
      · rintro ⟨n, hn, rfl⟩
        split at hn <;> omega
    · rw [if_pos (by omega)]
      by_cases hshort : size % 65552 ≤ 16
      · rw [if_pos (by omega)]
        refine iff_of_false (by nofun) ?_
        rintro ⟨n, hn, -⟩
        split at hn <;> omega
      · rw [if_neg (by omega), Except.ok.injEq]
        constructor
        · rintro rfl
          exact ⟨size / 65552 * 65536 + (size % 65552 - 16), by rw [if_neg (by omega)]; omega, by omega⟩
        · rintro ⟨n, hn, rfl⟩
          split at hn <;> omega

/-- Whatever the buffers, and whatever the input gives at a time: the encrypter comes to its end, if there are enough
buffers, and has then given the bytes that `encryptedSize` says. The sizes for which `decryptedSize` is no error are
those of the encryptions, and it gives the size of the plaintext. -/
theorem encrypted_sizes {σ : Type} {u : Underlying σ} {Left : σ → List UInt8 → Prop} {idle : σ → Nat}
    (hu : Honest .eof u.read Left idle u.patience) (c : Cipher) (nonce : Nonce) {s : σ} {plaintext : List UInt8}
    (hs : Left s plaintext) (hfits : fullSize plaintext.length < 2 ^ 63) :
    (∀ lens : List Nat, encryptedSize plaintext.length < lens.countP (0 < ·) →
      (readAll (Encrypter.read c u) lens (newEncrypter s nonce)).2 ≠ none) ∧
    (∀ lens : List Nat, (readAll (Encrypter.read c u) lens (newEncrypter s nonce)).2 ≠ none →
      (readAll (Encrypter.read c u) lens (newEncrypter s nonce)).2 = some .eof ∧
      (readAll (Encrypter.read c u) lens (newEncrypter s nonce)).1.length = encryptedSize plaintext.length) ∧
    decryptedSize (encryptedSize plaintext.length) = .ok plaintext.length ∧ ∀ m : Int, -2 ^ 63 + 32 ≤ m → m < 2 ^ 63 →
      ((∃ k, decryptedSize m = .ok k) ↔ ∃ n : Nat, fullSize n < 2 ^ 63 ∧ m = encryptedSize n) := by
  have hlen : (encryption c nonce plaintext).length = fullSize plaintext.length :=
    by rw [length_encryption, length_sealBlocks]
  have hread := readAll_spec (encrypter_honest hu c)
  rw [encryptedSize_eq hfits]
  refine ⟨?_, ?_, ?_, ?_⟩
  · intro lens hmany hnone
    obtain ⟨rest, htodo, ⟨-, hle⟩ | ⟨hend, -⟩⟩ := hread lens (newEncrypter_owes hs)
    · rw [htodo, length_append] at hlen
      omega
    · rw [hnone] at hend
      cases hend
  · intro lens hend
    obtain ⟨rest, htodo, ⟨hnone, -⟩ | ⟨heof, rfl⟩⟩ := hread lens (newEncrypter_owes hs)
    · exact absurd hnone hend
    · rw [append_nil] at htodo
      exact ⟨heof, by rw [← htodo, hlen]⟩
  · exact (decryptedSize_eq_ok (by omega) (by omega)).mpr ⟨_, rfl, rfl⟩
  · intro m hlow hhigh
    simp only [decryptedSize_eq_ok hlow hhigh]
    constructor
    · rintro ⟨-, n, hn, -⟩
      have hn' : fullSize n < 2 ^ 63 := by omega
      exact ⟨n, hn', by rw [encryptedSize_eq hn', hn]⟩
    · rintro ⟨n, hn, rfl⟩
      exact ⟨n, n, (encryptedSize_eq hn).symm, rfl⟩

/-- Three bytes, read with buffers of 20, 0 and 40 bytes. -/
theorem encrypted_sizes_memory : encryptedSize 3 = 51 ∧ decryptedSize 51 = .ok 3 ∧
    ((readAll (Encrypter.read clearCipher memory) [20, 0, 40, 9] (newEncrypter [1, 2, 3] zeroNonce)).2 ≠ none →
      (readAll (Encrypter.read clearCipher memory) [20, 0, 40, 9] (newEncrypter [1, 2, 3] zeroNonce)).1.length =
        encryptedSize 3) := by
  have h := encrypted_sizes memory_honest clearCipher zeroNonce (rfl : ([1, 2, 3] : List UInt8) = [1, 2, 3]) (by decide)
  exact ⟨by decide, h.2.2.1, fun hend => (h.2.1 _ hend).2⟩

/-- The least integer is taken for the size of an encrypted file. -/
theorem decryptedSize_least : decryptedSize (-2 ^ 63) = .ok 9221120786662719440 := by
  decide

end ZClone.Crypt
