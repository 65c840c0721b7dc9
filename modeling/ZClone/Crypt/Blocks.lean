import ZClone.Crypt.Stream

/-!
# The format of an encrypted file

- `encryption` is what an encrypted file holds: the header, then the blocks of the data with one nonce after the other.
- Cutting the blocks at a multiple of their size is cutting the data (`drop_sealBlocks`, `take_sealBlocks`).
- The encrypter gives the encryption of what it reads (`encrypter_honest`, `newEncrypter_owes`).
-/

namespace ZClone.Crypt

open Reader List

variable {c : Cipher} {n : Nonce} {data : List UInt8} {k : Nat}

theorem blockDataSize_pos : 0 < blockDataSize := by decide

/-- The blocks of some data, sealed with one nonce after the other. -/
def sealBlocks (c : Cipher) (n : Nonce) (data : List UInt8) : List UInt8 :=
  if data = [] then []
  else c.sealBox n (data.take blockDataSize) ++ sealBlocks c n.increment (data.drop blockDataSize)
termination_by data.length
decreasing_by
  have hpos : 0 < data.length := List.length_pos_iff.mpr (by assumption)
  rw [List.length_drop]
  exact Nat.sub_lt hpos blockDataSize_pos

/-- An encrypted file. -/
def encryption (c : Cipher) (n : Nonce) (plaintext : List UInt8) : List UInt8 :=
  fileMagicBytes ++ n.bytes ++ sealBlocks c n plaintext

@[simp] theorem sealBlocks_nil : sealBlocks c n [] = [] := by
  rw [sealBlocks, if_pos rfl]

theorem sealBlocks_of_ne_nil (h : data ≠ []) :
    sealBlocks c n data = c.sealBox n (data.take blockDataSize) ++
      sealBlocks c n.increment (data.drop blockDataSize) := by
  rw [sealBlocks, if_neg h]

theorem length_block_full (h : blockDataSize ≤ data.length) :
    (c.sealBox n (data.take blockDataSize)).length = blockSize := by
  rw [c.length_sealBox, length_take, Nat.min_eq_left h, blockSize]

theorem length_block_le : (c.sealBox n (data.take blockDataSize)).length ≤ blockSize := by
  rw [c.length_sealBox, length_take, blockSize]
  omega

/-- A short block is the last. -/
theorem sealBlocks_short (hne : data ≠ []) (h : data.length ≤ blockDataSize) :
    sealBlocks c n data = c.sealBox n data := by
  rw [sealBlocks_of_ne_nil hne, take_of_length_le h, drop_eq_nil_of_le h, sealBlocks_nil, append_nil]

theorem ne_nil_of_le_length (h : (k + 1) * blockDataSize ≤ data.length) : data ≠ [] := by
  rintro rfl
  rw [Nat.succ_mul] at h
  have hpos := blockDataSize_pos
  simp only [length_nil] at h
  omega

theorem first_block_full (h : (k + 1) * blockDataSize ≤ data.length) :
    blockDataSize ≤ data.length ∧ k * blockDataSize ≤ (data.drop blockDataSize).length := by
  rw [Nat.succ_mul] at h
  rw [length_drop]
  omega

theorem drop_sealBlocks (k : Nat) (h : k * blockDataSize ≤ data.length) :
    (sealBlocks c n data).drop (k * blockSize) =
      sealBlocks c (Nonce.increment^[k] n) (data.drop (k * blockDataSize)) := by
  induction k generalizing n data with
  | zero => simp
  | succ k ih =>
    obtain ⟨hfull, hrest⟩ := first_block_full h
    rw [sealBlocks_of_ne_nil (ne_nil_of_le_length h), Nat.succ_mul, Nat.add_comm, ← drop_drop,
      ← @length_block_full c n data hfull, drop_left, length_block_full hfull, ih hrest, drop_drop,
      Function.iterate_succ_apply, Nat.succ_mul, Nat.add_comm blockDataSize]

theorem take_sealBlocks (k : Nat) :
    (sealBlocks c n data).take (k * blockSize) = sealBlocks c n (data.take (k * blockDataSize)) := by
  induction k generalizing n data with
  | zero => simp
  | succ k ih =>
    by_cases hne : data = []
    · simp [hne]
    have hblock := @length_block_le c n data
    have hsize : (k + 1) * blockSize = blockSize + k * blockSize := by rw [Nat.succ_mul, Nat.add_comm]
    have hdata : (k + 1) * blockDataSize = blockDataSize + k * blockDataSize := by rw [Nat.succ_mul, Nat.add_comm]
    obtain hshort | hfull := Nat.le_total data.length blockDataSize
    · -- there is only one block, and all of it is taken
      rw [take_of_length_le (show data.length ≤ (k + 1) * blockDataSize by omega)]
      refine take_of_length_le ?_
      rw [sealBlocks_short hne hshort, ← take_of_length_le hshort]
      omega
    · have htake : data.take ((k + 1) * blockDataSize) ≠ [] := by
        have hpos := blockDataSize_pos
        rw [← length_pos_iff, length_take]
        omega
      rw [sealBlocks_of_ne_nil hne, sealBlocks_of_ne_nil htake, take_append, take_of_length_le (by omega),
        length_block_full hfull, hsize, Nat.add_sub_cancel_left, ih, hdata, take_take,
        Nat.min_eq_left (Nat.le_add_right _ _), drop_take, Nat.add_sub_cancel_left]

theorem take_block (h : data ≠ []) : (sealBlocks c n data).take blockSize = c.sealBox n (data.take blockDataSize) := by
  have hne : data.take blockDataSize ≠ [] := fun hnil => h ((take_eq_nil_iff.mp hnil).resolve_left (by decide))
  have htake := @take_sealBlocks c n data 1
  rw [Nat.one_mul, Nat.one_mul] at htake
  rw [htake, sealBlocks_short hne (length_take_le _ _)]

theorem drop_block (h : data ≠ []) :
    (sealBlocks c n data).drop blockSize = sealBlocks c n.increment (data.drop blockDataSize) := by
  have hsplit := take_append_drop blockSize (sealBlocks c n data)
  rw [take_block h] at hsplit
  exact append_cancel_left (hsplit.trans (sealBlocks_of_ne_nil h))

theorem le_length_sealBlocks (k : Nat) (h : k * blockDataSize ≤ data.length) :
    k * blockSize ≤ (sealBlocks c n data).length := by
  induction k generalizing n data with
  | zero => simp
  | succ k ih =>
    obtain ⟨hfull, hrest⟩ := first_block_full h
    rw [sealBlocks_of_ne_nil (ne_nil_of_le_length h), length_append, length_block_full hfull, Nat.succ_mul,
      Nat.add_comm]
    exact Nat.add_le_add_left (ih hrest) _

/-! ## The encrypter -/

section Encrypter

variable {σ : Type} {u : Underlying σ} {Left : σ → List UInt8 → Prop} {idle : σ → Nat}

/-- What an encrypter still has to give: the rest of its buffer, and the blocks of what its input owes. -/
def Encrypter.Owes (c : Cipher) (Left : σ → List UInt8 → Prop) (fh : Encrypter σ) (todo : List UInt8) : Prop :=
  (fh.err = some .eof ∧ todo = []) ∨
    (fh.err = none ∧ ∃ rest, Left fh.input rest ∧ todo = fh.buf.drop fh.bufIndex ++ sealBlocks c fh.nonce rest)

theorem newEncrypter_owes {s : σ} (h : Left s data) : (newEncrypter s n).Owes c Left (encryption c n data) :=
  .inr ⟨rfl, data, h, rfl⟩

theorem Encrypter.gives_copyOut {fh : Encrypter σ} {rest : List UInt8} (len : Nat) (herr : fh.err = none)
    (hrest : Left fh.input rest) (hindex : fh.bufIndex < fh.buf.length) :
    Gives .eof (Encrypter.Owes c Left) (fh.buf.drop fh.bufIndex ++ sealBlocks c fh.nonce rest) len
      (fh.copyOut len) := by
  have hne : fh.buf.drop fh.bufIndex ≠ [] := by
    rw [← length_pos_iff, length_drop]
    omega
  refine ⟨length_take_le _ _, (fh.buf.drop fh.bufIndex).drop len ++ sealBlocks c fh.nonce rest, ?_,
    .inr ⟨herr, rest, hrest, ?_⟩, .inl ⟨rfl, fun hpos => ?_⟩⟩
  · rw [← append_assoc, Encrypter.copyOut, take_append_drop]
  · -- the index moves over the bytes that were copied
    rw [Encrypter.copyOut, ← drop_drop, length_take]
    obtain hle | hle := Nat.le_total len (fh.buf.drop fh.bufIndex).length
    · rw [Nat.min_eq_left hle]
    · rw [Nat.min_eq_right hle, drop_length, drop_eq_nil_of_le hle]
  · rw [Encrypter.copyOut]
    exact fun h => (take_eq_nil_iff.mp h).elim (by omega) hne

/-- The encrypter of an honest reader is one. -/
theorem encrypter_honest (hu : Honest .eof u.read Left idle u.patience) (c : Cipher) :
    Honest .eof (Encrypter.read c u) (Encrypter.Owes c Left) (fun _ => 0) 0 := by
  refine honest_of_gives fun {fh todo} len howes => ?_
  obtain ⟨herr, rfl⟩ | ⟨herr, rest, hrest, rfl⟩ := howes
  · rw [Encrypter.read, herr]
    exact ⟨Nat.zero_le _, [], rfl, .inl ⟨herr, rfl⟩, .inr ⟨rfl, rfl⟩⟩
  · rw [Encrypter.read, herr]
    dsimp only
    split_ifs with hindex hnil
    · -- the input has ended
      obtain ⟨hbytes, hstate, hend⟩ := filled_readFill hu hrest blockDataSize
      have hpos := blockDataSize_pos
      obtain rfl : rest = [] := by
        rw [Underlying.readFill, hbytes, take_eq_nil_iff] at hnil
        exact hnil.resolve_left (by omega)
      have heof : (u.readFill blockDataSize fh.input).err = some .eof := by
        obtain ⟨-, hle⟩ | ⟨h, -⟩ := hend
        · exact absurd hle (by rw [length_nil]; omega)
        · exact h
      rw [drop_eq_nil_of_le hindex, sealBlocks_nil]
      exact ⟨Nat.zero_le _, [], rfl, .inl ⟨heof, rfl⟩, .inr ⟨heof, rfl⟩⟩
    · obtain ⟨hbytes, hstate, -⟩ := filled_readFill hu hrest blockDataSize
      rw [Underlying.readFill] at hnil ⊢
      have hne : rest ≠ [] := by
        rintro rfl
        exact hnil (by rw [hbytes, take_nil])
      rw [drop_eq_nil_of_le hindex, nil_append, sealBlocks_of_ne_nil hne, hbytes]
      refine Encrypter.gives_copyOut len rfl hstate ?_
      dsimp only
      rw [c.length_sealBox, blockHeaderSize]
      omega
    · exact Encrypter.gives_copyOut len herr hrest (by omega)

end Encrypter

end ZClone.Crypt
