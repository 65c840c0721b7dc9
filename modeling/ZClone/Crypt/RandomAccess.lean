import ZClone.Crypt.Place

/-!
# Reading an encrypted file from any place

`Decrypter.Owes` says what a decrypter still has to give. Reads keep to it (`decrypter_honest`), and seeks and the
constructor lead to the place they are for (`rangeSeek_spec`, `newDecrypterSeek_spec`).
-/

namespace ZClone.Crypt

open Reader List

variable {σ : Type} {c : Cipher} {u : Underlying σ} {reopen : Int → Int → Except Err σ} {Left : σ → List UInt8 → Prop}
  {idle : σ → Nat} {n : Nonce} {plaintext rest file : List UInt8} {k : Nat}

/-- What a decrypter still has to give: nothing after the end, else the rest of its buffer and of the blocks to come, up
to the limit. -/
structure Decrypter.Owes (c : Cipher) (n : Nonce) (reopen : Int → Int → Except Err σ) (Left : σ → List UInt8 → Prop)
    (fh : Decrypter σ) (todo : List UInt8) : Prop where
  initialNonce : fh.initialNonce = n
  reopens : fh.reopen = some reopen
  open_rc : ∃ left, Left fh.rc left
  stage : (fh.err = some .eof ∧ todo = []) ∨
    (fh.err = none ∧ ∃ rest, Left fh.rc (sealBlocks c fh.nonce rest) ∧
      todo = limited fh.limit (fh.buf.drop fh.bufIndex ++ rest))

/-- The next block, or the end. -/
theorem fillBuffer_spec (hu : Honest .eof u.read Left idle u.patience) {fh : Decrypter σ}
    (hleft : Left fh.rc (sealBlocks c fh.nonce rest)) :
    (rest = [] ∧ ∃ rc, Left rc [] ∧ fh.fillBuffer c u = (some .eof, { fh with rc := rc })) ∨
      (rest ≠ [] ∧ ∃ rc, Left rc (sealBlocks c fh.nonce.increment (rest.drop blockDataSize)) ∧
        fh.fillBuffer c u =
          (none, { fh with
            rc := rc, buf := rest.take blockDataSize, bufIndex := 0, nonce := fh.nonce.increment })) := by
  obtain ⟨hbytes, hstate, hend⟩ := filled_readFill hu hleft blockSize
  rw [← Underlying.readFill] at hbytes hstate hend
  by_cases hnil : rest = []
  · subst hnil
    rw [sealBlocks_nil] at hbytes hstate hend
    refine .inl ⟨rfl, _, hstate, ?_⟩
    have heof : (u.readFill blockSize fh.rc).err = some .eof := by
      obtain ⟨-, hle⟩ | ⟨h, -⟩ := hend
      · exact absurd hle (by decide)
      · exact h
    rw [Decrypter.fillBuffer, hbytes, take_nil, if_pos rfl, heof]
  · have hlen : blockHeaderSize < (c.sealBox fh.nonce (rest.take blockDataSize)).length := by
      have hpos : 0 < rest.length := length_pos_iff.mpr hnil
      have hdata := blockDataSize_pos
      rw [c.length_sealBox, length_take]
      omega
    rw [take_block hnil] at hbytes
    rw [drop_block hnil] at hstate
    refine .inr ⟨hnil, _, hstate, ?_⟩
    rw [Decrypter.fillBuffer]
    rw [hbytes, if_neg (ne_nil_of_length_pos (by omega)), if_neg (by omega), c.openBox_sealBox]

/-! ## Reading -/

/-- A limit over a list of which the first part is taken. -/
theorem limited_append {limit : Int} {l : List UInt8} {j : Nat} (hj : j ≤ l.length) (hlimit : limit < 0 ∨ j ≤ limit)
    (rest : List UInt8) :
    limited limit (l ++ rest) = l.take j ++ limited (if limit < 0 then limit else limit - j) (l.drop j ++ rest) := by
  obtain hneg | ⟨m, rfl⟩ := neg_or_exists_nat limit
  · rw [if_pos hneg, limited_of_neg hneg, limited_of_neg hneg, ← append_assoc, take_append_drop]
  · have hle : j ≤ m := by omega
    rw [if_neg (by omega), ← Nat.cast_sub hle, limited_of_nonneg, limited_of_nonneg]
    conv_lhs => rw [← take_append_drop j l, append_assoc, take_append]
    rw [length_take, Nat.min_eq_left hj, take_take, Nat.min_eq_right hle]

/-- How many bytes a read copies. -/
theorem copyOut_spec {fh : Decrypter σ} (herr : fh.err = none) (hindex : fh.bufIndex < fh.buf.length) (len : Nat) :
    ∃ j, j ≤ len ∧ j ≤ (fh.buf.drop fh.bufIndex).length ∧ (fh.limit < 0 ∨ j ≤ fh.limit) ∧
      (0 < len → 0 < j ∨ fh.limit = 0) ∧ fh.copyOut len = if 0 ≤ fh.limit then if fh.limit - j = 0 then
            ⟨(fh.buf.drop fh.bufIndex).take j, some .eof,
              { fh with bufIndex := fh.bufIndex + j, limit := fh.limit - j, err := some .eof }⟩
          else
            ⟨(fh.buf.drop fh.bufIndex).take j, none, { fh with bufIndex := fh.bufIndex + j, limit := fh.limit - j }⟩
        else ⟨(fh.buf.drop fh.bufIndex).take j, none, { fh with bufIndex := fh.bufIndex + j }⟩ := by
  obtain ⟨toCopy, hto⟩ : ∃ toCopy, toCopy =
      if 0 ≤ fh.limit ∧ fh.limit < (fh.buf.length - fh.bufIndex : Nat) then fh.limit.toNat
        else fh.buf.length - fh.bufIndex :=
    ⟨_, rfl⟩
  have hfacts : toCopy ≤ fh.buf.length - fh.bufIndex ∧ (fh.limit < 0 ∨ toCopy ≤ fh.limit) ∧
      (0 < toCopy ∨ fh.limit = 0) := by
    rw [hto]
    split_ifs with h <;> omega
  have hlen : (fh.buf.drop fh.bufIndex).length = fh.buf.length - fh.bufIndex := length_drop
  have hcopied :
      (((fh.buf.drop fh.bufIndex).take toCopy).take len) = (fh.buf.drop fh.bufIndex).take (min len toCopy) := by
    rw [take_take]
  have hcount : ((fh.buf.drop fh.bufIndex).take (min len toCopy)).length = min len toCopy := by
    rw [length_take]
    omega
  refine ⟨min len toCopy, by omega, by omega, by omega, by omega, ?_⟩
  rw [Decrypter.copyOut]
  dsimp only
  rw [← hto, hcopied, hcount, Decrypter.finish, herr]

theorem decrypter_gives {fh : Decrypter σ} (len : Nat) (herr : fh.err = none)
    (hnonce : fh.initialNonce = n) (hreopen : fh.reopen = some reopen) (hleft : Left fh.rc (sealBlocks c fh.nonce rest))
    (hindex : fh.bufIndex < fh.buf.length) :
    Gives .eof (Decrypter.Owes c n reopen Left) (limited fh.limit (fh.buf.drop fh.bufIndex ++ rest)) len
      (fh.copyOut len) := by
  obtain ⟨j, hlen, hsize, hlimit, hprogress, hcopy⟩ := copyOut_spec herr hindex len
  have hne : 0 < len → fh.limit ≠ 0 → (fh.buf.drop fh.bufIndex).take j ≠ [] := by
    intro hpos hzero
    rw [← length_pos_iff, length_take]
    omega
  have hle : ((fh.buf.drop fh.bufIndex).take j).length ≤ len := (length_take_le _ _).trans hlen
  have htodo := limited_append hsize hlimit rest
  rw [hcopy]
  split_ifs with hnonneg hzero
  · -- the limit is reached
    rw [if_neg (by omega), hzero, limited_zero] at htodo
    exact ⟨hle, [], htodo, ⟨hnonce, hreopen, ⟨_, hleft⟩, .inl ⟨rfl, rfl⟩⟩, .inr ⟨rfl, rfl⟩⟩
  · rw [if_neg (by omega), drop_drop] at htodo
    refine ⟨hle, _, htodo, ⟨hnonce, hreopen, ⟨_, hleft⟩, .inr ⟨herr, rest, hleft, rfl⟩⟩, .inl ⟨rfl, fun hpos => ?_⟩⟩
    -- with a limit of zero nothing would be copied, and the limit reached
    exact hne hpos (by omega)
  · rw [if_pos (by omega), drop_drop] at htodo
    exact ⟨hle, _, htodo, ⟨hnonce, hreopen, ⟨_, hleft⟩, .inr ⟨herr, rest, hleft, rfl⟩⟩,
      .inl ⟨rfl, fun hpos => hne hpos (by omega)⟩⟩

/-- The decrypter of an honest reader is one. -/
theorem decrypter_honest (hu : Honest .eof u.read Left idle u.patience) (c : Cipher) (n : Nonce)
    (reopen : Int → Int → Except Err σ) :
    Honest .eof (Decrypter.read c u) (Decrypter.Owes c n reopen Left) (fun _ => 0) 0 := by
  refine honest_of_gives fun {fh todo} len howes => ?_
  obtain ⟨hnonce, hreopen, hopen, ⟨herr, rfl⟩ | ⟨herr, rest, hleft, rfl⟩⟩ := howes
  · rw [Decrypter.read, herr]
    exact ⟨Nat.zero_le _, [], rfl, ⟨hnonce, hreopen, hopen, .inl ⟨herr, rfl⟩⟩, .inr ⟨rfl, rfl⟩⟩
  · rw [Decrypter.read, herr]
    by_cases hindex : fh.buf.length ≤ fh.bufIndex
    · rw [if_pos hindex, drop_eq_nil_of_le hindex, nil_append]
      obtain ⟨rfl, rc, hrc, hfill⟩ | ⟨hne, rc, hrc, hfill⟩ := @fillBuffer_spec _ c _ _ _ rest hu fh hleft
      · rw [hfill, limited_nil]
        dsimp only
        rw [Decrypter.finish, herr]
        exact ⟨Nat.zero_le _, [], rfl, ⟨hnonce, hreopen, ⟨_, hrc⟩, .inl ⟨rfl, rfl⟩⟩, .inr ⟨rfl, rfl⟩⟩
      · have hpos : 0 < (rest.take blockDataSize).length := by
          rw [length_pos_iff]
          exact fun hnil => hne ((take_eq_nil_iff.mp hnil).resolve_left (by decide))
        have hgives := @decrypter_gives σ c reopen Left n (rest.drop blockDataSize)
          { fh with rc := rc, buf := rest.take blockDataSize, bufIndex := 0, nonce := fh.nonce.increment }
          len herr hnonce hreopen hrc hpos
        rw [drop_zero, take_append_drop] at hgives
        rw [hfill]
        exact hgives
    · rw [if_neg hindex]
      exact decrypter_gives len herr hnonce hreopen hleft (by omega)

/-! ## Seeking -/

/-- A place to seek to. -/
structure Span where
  offset : Int
  limit : Int

section

variable (plaintext : List UInt8) (p : Span)

/-- The offset is within the file, the limit an `int64`. -/
def Span.Within : Prop := 0 ≤ p.offset ∧ p.offset ≤ plaintext.length ∧ p.limit < 2 ^ 63

/-- The bytes of the file from the offset up to the limit or the end. -/
def Span.bytes : List UInt8 := window plaintext p.offset p.limit

/-- The place is the end of the file and there is no block for it. -/
def Span.AtEnd : Prop :=
  p.offset = plaintext.length ∧ plaintext.length % blockDataSize = 0

end

instance (plaintext : List UInt8) (p : Span) : Decidable (p.AtEnd plaintext) := inferInstanceAs (Decidable (_ ∧ _))

theorem moveTo_spec {todo : List UInt8} (holds : Holds u reopen file Left idle) {fh : Decrypter σ}
    (hleft : Left fh.rc todo) {offset limit : Int} (hlow : 0 ≤ offset) (hhigh : offset ≤ file.length) :
    ∃ rc, Left rc (window file offset limit) ∧ fh.moveTo u reopen offset limit = (none, { fh with rc := rc }) := by
  rw [Decrypter.moveTo]
  cases hseek : u.rangeSeek fh.rc with
  | some seek =>
    obtain ⟨herr, hrc⟩ := @Holds.seeks _ _ _ _ _ _ holds _ _ _ offset limit hleft hseek hlow hhigh
    refine ⟨_, hrc, ?_⟩
    dsimp only
    rw [herr]
  | none =>
    obtain ⟨rc, hopen, hrc⟩ := @Holds.opens _ _ _ _ _ _ holds offset limit hlow hhigh
    exact ⟨rc, hrc, by rw [hopen]⟩

theorem add_blocks (n : Nonce) (hk : k < 2 ^ 63) : n.add (UInt64.ofInt k) = Nonce.increment^[k] n := by
  have hvalue : (UInt64.ofInt k).toNat = k := by
    rw [UInt64.ofInt, UInt64.toNat_ofNat']
    omega
  rw [add_eq_iterate, hvalue]

/-- The data from the block of an offset on is empty when the offset is at the end and there is no block for it. -/
theorem atEnd_iff {limit : Int} (hoffset : k ≤ plaintext.length) :
    Span.AtEnd plaintext ⟨k, limit⟩ ↔ plaintext.drop (k / blockDataSize * blockDataSize) = [] := by
  rw [Span.AtEnd, drop_eq_nil_iff]
  have hdiv : blockDataSize * (k / blockDataSize) + k % blockDataSize = k := Nat.div_add_mod k blockDataSize
  rw [Nat.mul_comm] at hdiv
  constructor
  · rintro ⟨hk, hmod⟩
    obtain rfl : k = plaintext.length := Int.ofNat.inj hk
    omega
  · intro hle
    obtain rfl : k = plaintext.length := by omega
    exact ⟨rfl, by omega⟩

section

variable (holds : Holds u reopen (encryption c n plaintext) Left idle) {fh : Decrypter σ} {todo : List UInt8}

include holds

theorem seekTo_spec (herr : fh.err = none) (hnonce : fh.initialNonce = n) (hreopen : fh.reopen = some reopen)
    (hleft : Left fh.rc todo) {p : Span} (hp : p.Within plaintext) :
    (fh.seekTo c u reopen p.offset p.limit).1 = (if p.AtEnd plaintext then some .eof else none) ∧
      (fh.seekTo c u reopen p.offset p.limit).2.Owes c n reopen Left (p.bytes plaintext) := by
  subst hnonce
  obtain ⟨offset, limit⟩ := p
  obtain ⟨hlow, hhigh, hlimit⟩ := hp
  dsimp only at hlow hhigh hlimit ⊢
  obtain ⟨k, rfl⟩ := Int.eq_ofNat_of_zero_le hlow
  have hoffset : k ≤ plaintext.length := by omega
  have hstart := @blockStart_le c fh.initialNonce plaintext k hoffset
  have hfits := holds.fits
  obtain ⟨hblocks, hdiscard, hplace⟩ := calculateUnderlying_spec limit (hstart.trans_lt hfits)
  obtain ⟨data, ⟨hbytes, hsize, hnil⟩, hwindow⟩ := window_spec hoffset hlimit hfits
  have hend := @atEnd_iff plaintext k limit hoffset
  rw [Span.bytes, window, Int.toNat_natCast]
  have hnumber :
      fh.initialNonce.add (.ofInt (k / blockDataSize : Nat)) = .increment^[k / blockDataSize] fh.initialNonce := by
    have hle : k / blockDataSize ≤ k / blockDataSize * blockSize := Nat.le_mul_of_pos_right _ (by decide)
    exact add_blocks _ (by omega)
  -- the parts of the file that are read and discarded
  have hsplit : (plaintext.drop (k / blockDataSize * blockDataSize)).drop (k % blockDataSize) = plaintext.drop k := by
    rw [drop_drop, Nat.mul_comm, Nat.div_add_mod]
  rw [hsplit] at hbytes
  obtain ⟨rc, hrc, hmoved⟩ := @moveTo_spec _ _ _ _ _ _ _ holds
    { fh with nonce := .increment^[k / blockDataSize] fh.initialNonce } hleft
      (calculateUnderlying k limit).underlyingOffset
    (calculateUnderlying k limit).underlyingLimit (by omega) (by omega)
  rw [hwindow] at hrc
  rw [Decrypter.seekTo]
  rw [hblocks, hnumber, hmoved]
  dsimp only
  obtain ⟨rfl, rc', hrc', hfill⟩ | ⟨hne, rc', hrc', hfill⟩ := @fillBuffer_spec _ c _ _ _ data holds.honest
    { fh with nonce := .increment^[k / blockDataSize] fh.initialNonce, rc := rc } hrc
  · rw [hfill, if_pos (hend.mpr (hnil.mp rfl))]
    rw [Decrypter.finish, herr]
    refine ⟨rfl, rfl, hreopen, ⟨_, hrc'⟩, .inl ⟨rfl, ?_⟩⟩
    rw [← hbytes, drop_nil, limited_nil]
  · have hdrop : k % blockDataSize ≤ (data.take blockDataSize).length := by
      refine hsize ?_
      have hdiv := Nat.div_add_mod k blockDataSize
      rw [length_drop]
      rw [Nat.mul_comm] at hdiv
      omega
    rw [hfill, if_neg (fun h => hne (hnil.mpr (hend.mp h)))]
    dsimp only
    rw [hdiscard, if_neg (by omega)]
    refine ⟨rfl, rfl, hreopen, ⟨_, hrc'⟩, .inr ⟨herr, data.drop blockDataSize, hrc', ?_⟩⟩
    rw [← hbytes, Int.toNat_natCast, ← drop_append_of_le_length hdrop, take_append_drop]

theorem rangeSeek_spec (howes : fh.Owes c n reopen Left todo) {p : Span} (hp : p.Within plaintext) :
    (fh.rangeSeek c u p.offset 0 p.limit).1 = (if p.AtEnd plaintext then some .eof else none) ∧
      (fh.rangeSeek c u p.offset 0 p.limit).2.Owes c n reopen Left (p.bytes plaintext) := by
  obtain ⟨hnonce, hreopen, ⟨left, hleft⟩, hstage⟩ := howes
  rw [Decrypter.rangeSeek, hreopen]
  dsimp only
  rw [if_neg (not_not.mpr rfl)]
  obtain ⟨herr, -⟩ | ⟨herr, -⟩ := hstage
  · rw [if_pos herr]
    exact @seekTo_spec _ _ _ _ _ _ _ _ holds fh.unFinish _ rfl hnonce hreopen hleft p hp
  · rw [if_neg (by rw [herr]; exact nofun), if_neg (not_not.mpr herr)]
    exact seekTo_spec holds herr hnonce hreopen hleft hp

end

/-! ## Opening -/

theorem fromBuf_bytes (n : Nonce) : Nonce.fromBuf n.bytes = n := by
  obtain ⟨l, hl⟩ := n
  have htake : (l ++ replicate fileNonceSize 0).take fileNonceSize = l := by rw [← hl, take_left]
  simp only [Nonce.fromBuf, htake]

theorem newDecrypter_spec (hu : Honest .eof u.read Left idle u.patience) {rc : σ}
    (hleft : Left rc ((fileMagicBytes ++ n.bytes) ++ rest)) :
    ∃ rc', Left rc' rest ∧ newDecrypter u rc = .ok ⟨rc', n, n, [], 0, none, -1, none⟩ := by
  obtain ⟨hbytes, hstate, hend⟩ := filled_readFill hu hleft fileHeaderSize
  rw [← Underlying.readFill] at hbytes hstate hend
  rw [← length_header n, take_left, length_header] at hbytes
  rw [← length_header n, drop_left, length_header] at hstate
  refine ⟨_, hstate, ?_⟩
  have hpending : pending (u.readFill fileHeaderSize rc).err = none := by
    obtain ⟨h, -⟩ | ⟨h, -⟩ := hend <;> rw [h] <;> rfl
  have hmagic : fileMagicSize = fileMagicBytes.length := rfl
  rw [newDecrypter]
  rw [hbytes, length_header, if_neg (fun h => Nat.lt_irrefl _ h.1), hpending, hmagic, take_left, drop_left,
    if_neg (not_not.mpr rfl), fromBuf_bytes]

/-- A decrypter opened at a place owes the bytes of the place. There is none at an end without a block. -/
theorem newDecrypterSeek_spec (holds : Holds u reopen (encryption c n plaintext) Left idle) {p : Span}
    (hp : p.Within plaintext) :
    (∃ fh, newDecrypterSeek c u reopen p.offset p.limit = .ok fh ∧ fh.Owes c n reopen Left (p.bytes plaintext)) ∨
      (newDecrypterSeek c u reopen p.offset p.limit = .error .eof ∧ p.offset ≠ 0 ∧ p.AtEnd plaintext) := by
  have hopens := fun limit => @Holds.opens _ _ _ _ _ _ holds 0 limit (Int.le_refl 0) (Int.natCast_nonneg _)
  by_cases hzero : p.offset = 0
  · refine .inl ?_
    obtain hneg | ⟨limit, hlimit⟩ := neg_or_exists_nat p.limit
    · -- the whole file
      obtain ⟨rc, hopen, hrc⟩ := hopens (-1)
      obtain ⟨rc', hrc', hnew⟩ := @newDecrypter_spec _ _ _ _ n (sealBlocks c n plaintext) holds.honest rc hrc
      refine ⟨⟨rc', n, n, [], 0, none, -1, some reopen⟩, ?_, rfl, rfl, ⟨_, hrc'⟩, .inr ⟨rfl, plaintext, hrc', ?_⟩⟩
      · simp only [newDecrypterSeek, hzero, hneg, and_self, if_true, hopen, hnew, bind, Except.bind, pure, Except.pure]
      · rw [Span.bytes, window, hzero, limited_of_neg hneg]
        rfl
    · obtain ⟨data, ⟨hbytes, -, -⟩, hwindow⟩ := @window_header c n plaintext limit (by have := hp.2.2; omega)
      obtain ⟨rc, hopen, hrc⟩ := hopens (int64 (fileHeaderSize + (calculateUnderlying 0 limit).underlyingLimit))
      rw [hwindow] at hrc
      obtain ⟨rc', hrc', hnew⟩ := newDecrypter_spec holds.honest hrc
      have hnonneg : ¬(limit : Int) < 0 := by omega
      refine ⟨⟨rc', n, n, [], 0, none, limit, some reopen⟩, ?_, rfl, rfl, ⟨_, hrc'⟩, .inr ⟨rfl, data, hrc', ?_⟩⟩
      · simp only [newDecrypterSeek, hzero, hnonneg, and_false, if_true, if_false, hlimit, hopen, hnew, bind,
          Except.bind, pure, Except.pure]
      · rw [Span.bytes, window, hzero, hlimit]
        exact hbytes.symm
  · -- the header, then a seek
    obtain ⟨rc, hopen, hrc⟩ := hopens fileHeaderSize
    have hheader : window (encryption c n plaintext) 0 fileHeaderSize = (fileMagicBytes ++ n.bytes) ++ [] := by
      rw [window, limited_of_nonneg, encryption, append_nil, ← length_header n]
      exact take_left
    rw [hheader] at hrc
    obtain ⟨rc', hrc', hnew⟩ := newDecrypter_spec holds.honest hrc
    have howes : Decrypter.Owes c n reopen Left ⟨rc', n, n, [], 0, none, -1, some reopen⟩ [] :=
      ⟨rfl, rfl, ⟨_, hrc'⟩, .inr ⟨rfl, [], by rwa [sealBlocks_nil], rfl⟩⟩
    obtain ⟨herr, hseek⟩ := rangeSeek_spec holds howes hp
    have hstart : newDecrypterSeek c u reopen p.offset p.limit =
        (Decrypter.rangeSeek c u p.offset 0 p.limit ⟨rc', n, n, [], 0, none, -1, some reopen⟩).1.elim
          (.ok (Decrypter.rangeSeek c u p.offset 0 p.limit ⟨rc', n, n, [], 0, none, -1, some reopen⟩).2) .error := by
      simp only [newDecrypterSeek, hzero, false_and, if_false, hopen, hnew, bind, Except.bind, pure, Except.pure]
      rcases Decrypter.rangeSeek c u p.offset 0 p.limit ⟨rc', n, n, [], 0, none, -1, some reopen⟩ with ⟨_ | e, fh⟩ <;>
        rfl
    rw [hstart]
    generalize Decrypter.rangeSeek c u p.offset 0 p.limit ⟨rc', n, n, [], 0, none, -1, some reopen⟩ = r at herr hseek
    obtain ⟨err, fh⟩ := r
    by_cases hend : p.AtEnd plaintext
    · rw [if_pos hend] at herr
      rw [herr]
      exact .inr ⟨rfl, hzero, hend⟩
    · rw [if_neg hend] at herr
      rw [herr]
      exact .inl ⟨fh, rfl, hseek⟩

/-! ## Random access -/

/-- The encrypter of a reader of the plaintext gives its encryption. A decrypter opened over it at any place within
answers all reads and seeks with the bytes of the plaintext from the last place on, up to its limit or the end, and then
reports the end. A seek fails only at an end without a block, with the end. Adding to a nonce is as many increments. -/
theorem random_access (c : Cipher) (n : Nonce) (plaintext : List UInt8) :
    (∀ {τ : Type} {v : Underlying τ} {Input : τ → List UInt8 → Prop} {idle : τ → Nat} {s : τ},
        Honest .eof v.read Input idle v.patience → Input s plaintext → ∀ requests : List (Request Empty),
        Follows .eof Empty.elim (fun e _ => e.elim) (encryption c n plaintext)
          (transcript (fun e _ => e.elim) (Encrypter.read c v) (newEncrypter s n) requests)) ∧
      (∀ {σ : Type} {u : Underlying σ} {reopen : Int → Int → Except Err σ} {Left : σ → List UInt8 → Prop}
        {idle : σ → Nat}, Holds u reopen (encryption c n plaintext) Left idle → ∀ start : Span, start.Within plaintext →
        match newDecrypterSeek c u reopen start.offset start.limit with
        | .error e => e = .eof ∧ start.offset ≠ 0 ∧ start.AtEnd plaintext
        | .ok fh => ∀ requests : List (Request Span), (∀ p, .seek p ∈ requests → p.Within plaintext) →
          Follows .eof (Span.bytes plaintext) (fun p err => err = if p.AtEnd plaintext then some .eof else none)
            (start.bytes plaintext)
            (transcript (fun p fh => fh.rangeSeek c u p.offset 0 p.limit) (Decrypter.read c u) fh requests)) ∧
      ∀ k : UInt64, n.add k = Nonce.increment^[k.toNat] n ∧
        value (n.add k).bytes = (value n.bytes + k.toNat) % 2 ^ 192 := by
  refine ⟨fun hv hs requests => ?_, fun holds start hstart => ?_, fun k => ⟨add_eq_iterate n k, ?_⟩⟩
  · have hread := encrypter_honest hv c
    exact @follows_transcript _ _ _ _ _ _ _ _ _ _ (fun _ => True) _ hread (fun e => e.elim) requests _ _
      (fun e => e.elim) (newEncrypter_owes hs)
  · obtain ⟨fh, hnew, howes⟩ | ⟨hnew, hend⟩ := newDecrypterSeek_spec holds hstart
    · rw [hnew]
      intro requests hvalid
      exact follows_transcript (decrypter_honest holds.honest c n _)
        (fun p hp howes => rangeSeek_spec holds howes hp) hvalid
        howes
    · rw [hnew]
      exact ⟨rfl, hend⟩
  · rw [value_add, show 256 ^ fileNonceSize = 2 ^ 192 from by decide]

/-- A file in memory: what is left of it. -/
def memory : Underlying (List UInt8) where
  read len s := ⟨s.take len, if s.length ≤ len then some .eof else none, s.drop len⟩
  rangeSeek _ := none
  patience := 0

theorem memory_honest : Honest .eof memory.read Eq (fun _ => 0) memory.patience := by
  refine honest_of_gives fun {s todo} len howes => ?_
  subst howes
  refine ⟨length_take_le _ _, s.drop len, (take_append_drop len s).symm, rfl, ?_⟩
  by_cases hle : s.length ≤ len
  · exact .inr ⟨if_pos hle, drop_eq_nil_of_le hle⟩
  · refine .inl ⟨if_neg hle, fun hpos hnil => ?_⟩
    obtain hzero | rfl := take_eq_nil_iff.mp hnil
    · omega
    · exact hle (Nat.zero_le _)

theorem memory_holds (hfits : file.length < 2 ^ 63) :
    Holds memory (fun offset limit => .ok (window file offset limit)) file Eq (fun _ => 0) where
  fits := hfits
  honest := memory_honest
  opens _ _ := ⟨_, rfl, rfl⟩
  seeks _ hseek := nomatch hseek

/-- A cipher that hides nothing: its blocks have an empty header. -/
def clearCipher : Cipher where
  sealBox _ data := List.replicate blockHeaderSize 0 ++ data
  openBox _ block := some (block.drop blockHeaderSize)
  passBadBlocks := false
  length_sealBox _ data := by rw [List.length_append, List.length_replicate]
  openBox_sealBox _ data := rfl

def zeroNonce : Nonce := ⟨List.replicate fileNonceSize 0, List.length_replicate⟩

theorem clear_fits : (encryption clearCipher zeroNonce [1, 2, 3]).length < 2 ^ 63 := by
  rw [length_encryption, sealBlocks_short (by decide) (by decide)]
  decide

/-- Two bytes from the second on, and then the file from its start. -/
theorem random_access_memory : Span.Within [1, 2, 3] ⟨1, 2⟩ ∧
      match newDecrypterSeek clearCipher memory
        (fun offset limit => .ok (window (encryption clearCipher zeroNonce [1, 2, 3]) offset limit)) 1 2 with
      | .error e => e = .eof ∧ (1 : Int) ≠ 0 ∧ Span.AtEnd [1, 2, 3] ⟨1, 2⟩
      | .ok fh => Follows .eof (Span.bytes [1, 2, 3]) (fun p err => err = if p.AtEnd [1, 2, 3] then some .eof
          else none) [2, 3]
        (transcript (fun p fh => fh.rangeSeek clearCipher memory p.offset 0 p.limit)
          (Decrypter.read clearCipher memory) fh
          [.read 4, .seek ⟨0, -1⟩, .read 4]) := by
  have hstart : Span.Within [1, 2, 3] ⟨1, 2⟩ := ⟨by decide, by decide, by decide⟩
  refine ⟨hstart, ?_⟩
  have h := (random_access clearCipher zeroNonce [1, 2, 3]).2.1 (memory_holds clear_fits) ⟨1, 2⟩ hstart
  split at h <;> rename_i hnew <;> rw [hnew]
  · exact h
  · refine h _ fun p hp => ?_
    have hplace : p = ⟨0, -1⟩ := by simpa using hp
    rw [hplace]
    exact ⟨by decide, by decide, by decide⟩

end ZClone.Crypt
