import Mathlib.Data.List.Forall2
import Mathlib.Data.Prod.Lex
import Mathlib.Order.WithBot
import ZClone.Lib.Reader

/-!
# Reading a composite object (`linearReader` of `backend/chunker/chunker.go`)

The chunks are opened one after the other and read up to a limit. What an open chunk answers is left to the remote; a
chunk `Describes` its content if opening a range of it gives a reader that owes the bytes of the range.

- `Owed` is what the whole reader still has to give, `rank` what each read makes smaller.
- `nextChunk_spec`, `skip_spec`, `fill_spec`, `account_spec`: what is owed after each part of the code, and from them
  `newLinearReader_spec` and `read_spec`.
-/

namespace ZClone.Chunker.Linear

open List
open Reader (Answer Reply Serves Delivers answers)

variable {σ β ε γ : Type}

/-! ## The code -/

/-- The remote: `io.EOF`, and what `Read` and `Close` of an open chunk do. -/
structure Source (σ β ε : Type) where
  eof : ε
  read : Nat → σ → Answer σ β ε
  close : σ → Option ε

/-- A chunk; `openRange` is `Open` with a `RangeOption`, whose bounds are inclusive. -/
structure Chunk (σ ε : Type) where
  size : Int
  openRange : Int → Int → Except ε σ

/-- `opened` has the indexes of the chunks in the order of the calls of `Open`. -/
structure LinearReader (σ ε : Type) where
  chunks : List (Chunk σ ε)
  limit : Int
  count : Int
  pos : Nat
  reader : Option σ
  err : Option ε
  opened : List Nat

section Code

variable (src : Source σ β ε)

def close (r : LinearReader σ ε) : Option ε × LinearReader σ ε :=
  match r.reader with
  | none => (none, r)
  | some s => (src.close s, { r with reader := none })

/-- The part of `nextChunk` that opens the chunk in front of `pos`. -/
def openChunk (chunk : Chunk σ ε) (offset : Int) (r : LinearReader σ ε) : Int × Option ε × LinearReader σ ε :=
  let count := if r.limit < chunk.size - offset then r.limit else chunk.size - offset
  match (close src r).1 with
  | some e => (-1, some e, (close src r).2)
  | none =>
    let closed := { (close src r).2 with opened := r.opened ++ [r.pos - 1] }
    match chunk.openRange offset (offset + count - 1) with
    | .error e => (-1, some e, closed)
    | .ok reader => (offset, none, { closed with reader := some reader, count := count })

def nextChunk (offset : Int) (r : LinearReader σ ε) : Int × Option ε × LinearReader σ ε :=
  if r.err.isSome then (-1, r.err, r)
  else
    match r.chunks[r.pos]? with
    | none => (-1, some src.eof, r)
    | some chunk =>
      if r.limit ≤ 0 ∨ offset < 0 then (-1, some src.eof, r)
      else
        let r := { r with pos := r.pos + 1 }
        if chunk.size ≤ offset then (offset - chunk.size, some src.eof, r) else openChunk src chunk offset r

/-- `for offset >= 0 && err != nil { … }`. -/
def skip : Nat → Int → Option ε → LinearReader σ ε → Option (Option ε × LinearReader σ ε)
  | 0, _, _, _ => none
  | fuel + 1, offset, err, r =>
    if 0 ≤ offset ∧ err.isSome then
      let (offset, err, r) := nextChunk src offset r
      skip fuel offset err r
    else some (err, r)

/-- `for r.count <= 0 { … }`; the first result says that `Read` returns from within. -/
def fill : Nat → LinearReader σ ε → Option (Bool × LinearReader σ ε)
  | 0, _ => none
  | fuel + 1, r =>
    if r.count ≤ 0 then
      let (off, err, r) := nextChunk src 0 r
      if off < 0 then some (true, { r with err := err }) else fill fuel r
    else some (false, r)

variable [DecidableEq ε]

/-- The loop has a turn for each chunk. -/
def newLinearReader (chunks : List (Chunk σ ε)) (offset limit : Int) : Option (Except ε (LinearReader σ ε)) := do
  let (err, r) ← skip src (chunks.length + 2) offset (some src.eof) ⟨chunks, limit, 0, 0, none, none, []⟩
  if err = none ∨ err = some src.eof then some (.ok { r with err := err }) else err.map .error

/-- What `Read` makes of the answer of the open chunk. -/
def account (r : LinearReader σ ε) (a : Answer σ β ε) : Answer (LinearReader σ ε) β ε :=
  if a.err = none ∨ a.err = some src.eof then
    let limit := r.limit - a.bytes.length
    let err := if 0 < limit then none else a.err
    ⟨a.bytes, err, { r with reader := some a.state, count := r.count - a.bytes.length, limit := limit, err := err }⟩
  else ⟨a.bytes, a.err, { r with reader := some a.state, err := a.err }⟩

/-- `Read`; no result is a nil pointer. -/
def read (len : Nat) (r : LinearReader σ ε) : Option (Answer (LinearReader σ ε) β ε) :=
  if r.err.isSome then some ⟨[], r.err, r⟩
  else if r.limit ≤ 0 then some ⟨[], some src.eof, { r with err := some src.eof }⟩
  else do
    let (returned, r) ← fill src (r.chunks.length + 2) r
    if returned then some ⟨[], r.err, r⟩
    else
      let reader ← r.reader
      some (account src r (src.read len reader))

end Code

/-! ## What is owed -/

section Owes

variable (Fails : ε → Prop) (Owes : σ → List β → Prop)

/-- The chunk has the content: a range of it is opened to a reader of the bytes, unless that fails. -/
structure Describes (chunk : Chunk σ ε) (content : List β) : Prop where
  size : chunk.size = content.length
  opens : ∀ start n : Nat, 0 < n → start + n ≤ content.length →
    (∃ s, chunk.openRange start (start + n - 1) = .ok s ∧ Owes s ((content.drop start).take n)) ∨
      ∃ e, chunk.openRange start (start + n - 1) = .error e ∧ Fails e

/-- No chunk is being read; what is owed starts at the offset in the chunks from `pos` on. -/
structure Ready (r : LinearReader σ ε) (offset : Nat) (todo : List β) : Prop where
  err : r.err = none
  owed : ∃ later, List.Forall₂ (Describes Fails Owes) (r.chunks.drop r.pos) later ∧
    todo = (later.flatten.drop offset).take r.limit.toNat

/-- A chunk is being read: `count` bytes of it are owed, and then the chunks from `pos` on. -/
structure Reading (r : LinearReader σ ε) (s : σ) (todo : List β) : Prop where
  err : r.err = none
  reader : r.reader = some s
  pos : 0 < r.count
  le : r.count ≤ r.limit
  owed : ∃ curr later, Owes s curr ∧ r.count = curr.length ∧
    List.Forall₂ (Describes Fails Owes) (r.chunks.drop r.pos) later ∧ todo = (curr ++ later.flatten).take r.limit.toNat

/-- What the whole reader owes. -/
def Owed (eof : ε) (r : LinearReader σ ε) (todo : List β) : Prop :=
  (r.err = some eof ∧ todo = []) ∨ (∃ s, Reading Fails Owes r s todo) ∨ (r.count ≤ 0 ∧ Ready Fails Owes r 0 todo)

/-- What a read makes smaller: the chunks left, and then what is left of the one that is open. -/
def rank (μ : σ → γ) (r : LinearReader σ ε) : ℕ ×ₗ WithBot γ :=
  toLex (r.chunks.length - r.pos, if 0 < r.count then r.reader.elim ⊥ fun s => (μ s : WithBot γ) else ⊥)

end Owes

/-- The contract of the remote. -/
structure Contract [Preorder γ] (src : Source σ β ε) (Fails : ε → Prop) (Owes : σ → List β → Prop) (μ : σ → γ) :
    Prop where
  read : ∀ {s todo} (len : Nat), Owes s todo → Serves src.eof Fails Owes μ len s todo (src.read len s)
  close : ∀ {s e}, src.close s = some e → Fails e
  eof : ¬ Fails src.eof

section Specs

variable [Preorder γ] {src : Source σ β ε} {Fails : ε → Prop} {Owes : σ → List β → Prop} {μ : σ → γ}
  (hsrc : Contract src Fails Owes μ) {r : LinearReader σ ε} {todo : List β} {later : List (List β)}
    {offset : Nat} {s : σ}

include hsrc

theorem close_spec (r : LinearReader σ ε) : (∃ reader, (close src r).2 = { r with reader := reader }) ∧
    ∀ e, (close src r).1 = some e → Fails e := by
  obtain ⟨chunks, limit, count, pos, reader, err, opened⟩ := r
  cases reader with
  | none => exact ⟨⟨none, rfl⟩, nofun⟩
  | some s => exact ⟨⟨none, rfl⟩, fun e => hsrc.close⟩

/-- The chunk is opened for what is left of it, or up to the limit. -/
theorem openChunk_spec {chunk : Chunk σ ε} {content : List β}
    (herr : r.err = none) (hdesc : Describes Fails Owes chunk content)
    (hlater : List.Forall₂ (Describes Fails Owes) (r.chunks.drop r.pos) later) (hlimit : 0 < r.limit)
    (hoffset : offset < content.length) : (∃ e r', openChunk src chunk offset r = (-1, some e, r') ∧ Fails e) ∨
      ∃ r' s, openChunk src chunk offset r = ((offset : Int), none, r') ∧ r'.chunks = r.chunks ∧ r'.pos = r.pos ∧
        Reading Fails Owes r' s (((content ++ later.flatten).drop offset).take r.limit.toNat) := by
  obtain ⟨⟨reader, hclosed⟩, hclose⟩ := close_spec hsrc r
  rw [openChunk]
  cases hfail : (close src r).1 with
  | some e => exact .inl ⟨e, _, rfl, hclose e hfail⟩
  | none =>
    obtain ⟨n, hn⟩ : ∃ n : Nat, n = min r.limit.toNat (content.length - offset) := ⟨_, rfl⟩
    have hcount : (if r.limit < chunk.size - offset then r.limit else chunk.size - offset) = n := by
      rw [hdesc.size]
      split_ifs <;> omega
    simp only [hcount, hclosed]
    rcases hdesc.opens offset n (by omega) (by omega) with ⟨s, hopen, howes⟩ | ⟨e, hopen, hfails⟩
    · rw [hopen]
      refine .inr ⟨_, s, rfl, rfl, rfl, herr, rfl, ?_, ?_, (content.drop offset).take n, later, howes, ?_, hlater, ?_⟩
      · simp only
        omega
      · simp only
        omega
      · simp only [length_take, length_drop]
        omega
      · simp only
        rw [drop_append_of_le_length hoffset.le]
        rcases Nat.le_total r.limit.toNat (content.length - offset) with hle | hle
        · have hlen : r.limit.toNat ≤ (content.drop offset).length := by simpa using hle
          rw [hn, Nat.min_eq_left hle, take_append_of_le_length hlen, take_append_of_le_length (by simpa using hlen),
            take_take, Nat.min_self]
        · have hall : (content.drop offset).take n = content.drop offset := by
            refine take_of_length_le ?_
            rw [length_drop]
            omega
          rw [hall]
    · rw [hopen]
      exact .inl ⟨e, _, rfl, hfails⟩

/-- One call of `nextChunk`: the end, an error, a chunk passed over, or one opened. -/
theorem nextChunk_spec (h : Ready Fails Owes r offset todo) :
    (∃ e r', nextChunk src offset r = (-1, some e, r') ∧ ((e = src.eof ∧ todo = []) ∨ Fails e)) ∨
      (r.pos < r.chunks.length ∧
        ∃ (n : Nat) (r' : LinearReader σ ε), nextChunk src offset r = ((n : Int), some src.eof, r') ∧
        r'.chunks = r.chunks ∧ r'.pos = r.pos + 1 ∧ r'.count = r.count ∧ n ≤ offset ∧ Ready Fails Owes r' n todo) ∨
      (r.pos < r.chunks.length ∧ ∃ r' s, nextChunk src offset r = ((offset : Int), none, r') ∧
        r'.chunks = r.chunks ∧ r'.pos = r.pos + 1 ∧ Reading Fails Owes r' s todo) := by
  obtain ⟨herr, later, hlater, rfl⟩ := h
  rw [nextChunk, if_neg (by simp [herr])]
  cases hchunk : r.chunks[r.pos]? with
  | none =>
    refine .inl ⟨src.eof, r, rfl, .inl ⟨rfl, ?_⟩⟩
    rw [drop_eq_nil_of_le (List.getElem?_eq_none_iff.mp hchunk)] at hlater
    obtain rfl := forall₂_nil_left_iff.mp hlater
    simp
  | some chunk =>
    obtain ⟨hlt, rfl⟩ := List.getElem?_eq_some_iff.mp hchunk
    rw [drop_eq_getElem_cons hlt] at hlater
    obtain ⟨content, later, hdesc, hlater', rfl⟩ := forall₂_cons_left_iff.mp hlater
    simp only [flatten_cons, hdesc.size]
    by_cases hlimit : r.limit ≤ 0 ∨ (offset : Int) < 0
    · rw [if_pos hlimit]
      refine .inl ⟨src.eof, r, rfl, .inl ⟨rfl, ?_⟩⟩
      rw [show r.limit.toNat = 0 by omega, take_zero]
    rw [if_neg hlimit]
    by_cases hpast : (content.length : Int) ≤ offset
    · rw [if_pos hpast, ← Int.ofNat_sub (by omega)]
      refine .inr (.inl ⟨hlt, offset - content.length, _, rfl, rfl, rfl, rfl, Nat.sub_le _ _, herr, later, hlater', ?_⟩)
      rw [drop_append, drop_eq_nil_of_le (by omega), nil_append]
    · rw [if_neg hpast]
      have hpositive : 0 < r.limit := by omega
      have hin : offset < content.length := by omega
      rcases openChunk_spec hsrc (r := { r with pos := r.pos + 1 }) herr hdesc hlater' hpositive hin with
        ⟨e, r', hopen, hfails⟩ | ⟨r', s, hopen, hchunks, hpos, hreading⟩
      · exact .inl ⟨e, r', hopen, .inr hfails⟩
      · exact .inr (.inr ⟨hlt, r', s, hopen, hchunks, hpos, hreading⟩)

/-- By induction on the turns left, with one for each chunk from `pos` on. -/
theorem skip_spec : ∀ {fuel offset : Nat} {r : LinearReader σ ε} {todo : List β}, r.chunks.length - r.pos + 2 ≤ fuel →
    Ready Fails Owes r offset todo → ∃ err r', skip src fuel offset (some src.eof) r = some (err, r') ∧
      ((err = none ∧ ∃ s, Reading Fails Owes r' s todo) ∨ (err = some src.eof ∧ todo = []) ∨ ∃ e, err = some e ∧
        Fails e)
  | fuel + 2, offset, r, todo, hfuel, hready => by
    rw [skip, if_pos ⟨Int.natCast_nonneg _, rfl⟩]
    rcases nextChunk_spec hsrc hready with ⟨e, r', hnext, hend⟩ | ⟨hlt, n, r', hnext, hchunks, hpos, -, -, hready'⟩ |
      ⟨-, r', s, hnext, -, -, hreading⟩
    · rw [hnext]
      refine ⟨some e, r', by simp [skip], .inr ?_⟩
      exact hend.imp (fun h => ⟨congrArg some h.1, h.2⟩) fun h => ⟨e, rfl, h⟩
    · rw [hnext]
      refine skip_spec ?_ hready'
      rw [hchunks, hpos]
      omega
    · rw [hnext]
      exact ⟨none, r', by simp [skip], .inl ⟨rfl, s, hreading⟩⟩

/-- A reader of the range is made, unless that fails. -/
theorem newLinearReader_spec [DecidableEq ε] {chunks : List (Chunk σ ε)} {contents : List (List β)}
    (hchunks : List.Forall₂ (Describes Fails Owes) chunks contents) (offset : Nat) (limit : Int) :
    (∃ r, newLinearReader src chunks offset limit = some (.ok r) ∧
        Owed Fails Owes src.eof r ((contents.flatten.drop offset).take limit.toNat)) ∨
      ∃ e, newLinearReader src chunks offset limit = some (.error e) ∧ Fails e := by
  have hready : Ready Fails Owes ⟨chunks, limit, 0, 0, none, none, []⟩ offset
    ((contents.flatten.drop offset).take limit.toNat) :=
    ⟨rfl, contents, hchunks, rfl⟩
  have hturns : chunks.length - 0 + 2 ≤ chunks.length + 2 := le_rfl
  obtain ⟨err, r, hskip, hend⟩ := skip_spec hsrc hturns hready
  rw [newLinearReader, hskip]
  rcases hend with ⟨rfl, s, hreading⟩ | ⟨rfl, htodo⟩ | ⟨e, rfl, hfails⟩
  · refine .inl ⟨{ r with err := none }, ?_,
      .inr (.inl ⟨s, rfl, hreading.reader, hreading.pos, hreading.le, hreading.owed⟩)⟩
    simp
  · refine .inl ⟨{ r with err := some src.eof }, ?_, .inl ⟨rfl, htodo⟩⟩
    simp
  · refine .inr ⟨e, ?_, hfails⟩
    have hne : e ≠ src.eof := fun h => hsrc.eof (h ▸ hfails)
    simp [hne]

/-- The loop leaves a chunk that is being read alone; otherwise it goes on to the next one with a byte. -/
theorem fill_spec : ∀ {fuel : Nat} {r : LinearReader σ ε} {todo : List β}, r.chunks.length - r.pos + 2 ≤ fuel →
    r.count ≤ 0 → Ready Fails Owes r 0 todo →
      (∃ e r', fill src fuel r = some (true, r') ∧ r'.err = some e ∧ ((e = src.eof ∧ todo = []) ∨ Fails e)) ∨
        ∃ r' s, fill src fuel r = some (false, r') ∧ r'.chunks = r.chunks ∧ r.pos < r'.pos ∧ r.pos < r.chunks.length ∧
          Reading Fails Owes r' s todo
  | fuel + 2, r, todo, hfuel, hcount, hready => by
    rw [fill, if_pos hcount]
    rcases nextChunk_spec hsrc hready with ⟨e, r', hnext, hend⟩ |
      ⟨hlt, n, r', hnext, hchunks, hpos, hcount', hn, hready'⟩ |
      ⟨hlt, r', s, hnext, hchunks, hpos, hreading⟩
    · rw [show nextChunk src 0 r = _ from hnext]
      exact .inl ⟨e, { r' with err := some e }, rfl, rfl, hend⟩
    · obtain rfl : n = 0 := Nat.le_zero.mp hn
      rw [show nextChunk src 0 r = _ from hnext]
      have hturns : r'.chunks.length - r'.pos + 2 ≤ fuel + 1 := by
        rw [hchunks, hpos]
        omega
      rcases fill_spec hturns (hcount'.trans_le hcount) hready' with
        hend | ⟨r'', s, hfill, hchunks', hlt', -, hreading⟩
      · exact .inl hend
      · exact .inr ⟨r'', s, hfill, hchunks'.trans hchunks, by omega, hlt, hreading⟩
    · rw [show nextChunk src 0 r = _ from hnext]
      simp only [Int.natCast_zero, lt_irrefl, if_false]
      rw [fill, if_neg (not_le.mpr hreading.pos)]
      exact .inr ⟨r', s, rfl, hchunks, by omega, hlt, hreading⟩

omit hsrc in
/-- What is left behind some bytes of the chunk that is open. -/
theorem owed_behind {bytes rest : List β}
    (hcount : r.count = (bytes ++ rest).length) (hle : r.count ≤ r.limit) (hrest : rest ≠ [] → Owes s rest)
    (hlater : List.Forall₂ (Describes Fails Owes) (r.chunks.drop r.pos) later) : Owed Fails Owes src.eof
      { r with reader := some s, count := r.count - bytes.length, limit := r.limit - bytes.length, err := none }
      ((rest ++ later.flatten).take (r.limit - bytes.length).toNat) := by
  rw [length_append] at hcount
  rcases rest with - | ⟨b, rest⟩
  · refine .inr (.inr ⟨?_, rfl, later, hlater, rfl⟩)
    simp only [hcount, length_nil]
    omega
  · rw [length_cons] at hcount
    refine .inr (.inl ⟨s, rfl, rfl, ?_, ?_, b :: rest, later, hrest (cons_ne_nil b rest), ?_, hlater, rfl⟩)
    · simp only
      omega
    · simp only
      omega
    · simp only [length_cons]
      omega

omit hsrc in
/-- The chunk that is open is read to its end, or less is left of it. -/
theorem rank_behind {s' : σ} {n limit : Int} (hreader : r.reader = some s) (hpos : 0 < r.count)
    (hless : 0 < r.count - n → μ s' < μ s) :
    rank μ { r with reader := some s', count := r.count - n, limit := limit, err := none } < rank μ r := by
  rw [rank, rank, Prod.Lex.toLex_lt_toLex]
  refine .inr ⟨rfl, ?_⟩
  simp only [if_pos hpos, hreader, Option.elim_some]
  by_cases hmore : 0 < r.count - n
  · rw [if_pos hmore]
    exact WithBot.coe_lt_coe.mpr (hless hmore)
  · rw [if_neg hmore]
    exact WithBot.bot_lt_coe _

variable [DecidableEq ε]

/-- Reading from the chunk that is open. The end of the chunk is not the end as long as the limit is not reached. -/
theorem account_spec (h : Reading Fails Owes r s todo) (len : Nat) :
    Serves src.eof Fails (Owed Fails Owes src.eof) (rank μ) len r todo (account src r (src.read len s)) := by
  obtain ⟨herr, hreader, hpos, hle, curr, later, howes, hcount, hlater, rfl⟩ := h
  obtain ⟨hlen, rest, rfl, hend⟩ := hsrc.read len howes
  have hshort : (src.read len s).bytes.length ≤ r.limit.toNat := by
    rw [length_append] at hcount
    omega
  have htodo : ((src.read len s).bytes ++ rest ++ later.flatten).take r.limit.toNat =
      (src.read len s).bytes ++ (rest ++ later.flatten).take (r.limit - (src.read len s).bytes.length).toNat := by
    rw [append_assoc, take_append, take_of_length_le hshort]
    congr 2
    omega
  -- the reader goes on
  have hon : (src.read len s).err = none ∨ (src.read len s).err = some src.eof ∧
    0 < r.limit - (src.read len s).bytes.length →
      account src r (src.read len s) = ⟨(src.read len s).bytes, none, { r with
        reader := some (src.read len s).state, count := r.count - (src.read len s).bytes.length
        limit := r.limit - (src.read len s).bytes.length, err := none }⟩ := by
    rintro (hnone | ⟨heof, hmore⟩)
    · simp [account, hnone]
    · simp only [account, heof, or_true, if_true, if_pos hmore]
  rcases hend with ⟨hnone, hrest, hless⟩ | ⟨heof, rfl⟩ | ⟨e, hfail, hfails⟩
  · rw [hon (.inl hnone)]
    refine ⟨hlen, _, htodo, .inl ⟨rfl, owed_behind hcount hle (fun _ => hrest) hlater, fun hpositive => ?_⟩⟩
    exact rank_behind hreader hpos fun _ => hless hpositive
  · by_cases hmore : 0 < r.limit - (src.read len s).bytes.length
    · rw [hon (.inr ⟨heof, hmore⟩)]
      refine ⟨hlen, _, htodo, .inl ⟨rfl, owed_behind hcount hle (fun h => absurd rfl h) hlater, fun _ => ?_⟩⟩
      refine rank_behind hreader hpos fun hleft => ?_
      rw [append_nil] at hcount
      omega
    · refine ⟨?_, [], ?_, .inr (.inl ⟨?_, rfl⟩)⟩
      · simpa [account, heof] using hlen
      · rw [htodo, show (r.limit - (src.read len s).bytes.length).toNat = 0 by omega]
        simp [account, heof]
      · simp only [account, heof, or_true, if_true, if_neg hmore]
  · have hne : e ≠ src.eof := fun h => hsrc.eof (h ▸ hfails)
    refine ⟨?_, (rest ++ later.flatten).take (r.limit - (src.read len s).bytes.length).toNat, ?_,
      .inr (.inr ⟨e, ?_, hfails⟩)⟩
    · simpa [account, hfail, hne] using hlen
    · rw [htodo]
      simp [account, hfail, hne]
    · simp [account, hfail, hne]

theorem read_spec (len : Nat) (h : Owed Fails Owes src.eof r todo) :
    ∃ a, read src len r = some a ∧ Serves src.eof Fails (Owed Fails Owes src.eof) (rank μ) len r todo a := by
  rcases h with ⟨herr, rfl⟩ | ⟨s, h⟩ | ⟨hcount, h⟩
  · refine ⟨⟨[], some src.eof, r⟩, by simp [read, herr], Nat.zero_le _, [], rfl, .inr (.inl ⟨rfl, rfl⟩)⟩
  · have hlimit : ¬ r.limit ≤ 0 := not_le.mpr (h.pos.trans_le h.le)
    refine ⟨account src r (src.read len s), ?_, account_spec hsrc h len⟩
    simp [read, h.err, hlimit, fill, not_le.mpr h.pos, h.reader]
  · by_cases hlimit : r.limit ≤ 0
    · obtain ⟨later, -, rfl⟩ := h.owed
      refine ⟨⟨[], some src.eof, { r with err := some src.eof }⟩, by simp [read, h.err, hlimit], Nat.zero_le _, [], ?_,
        .inr (.inl ⟨rfl, rfl⟩)⟩
      rw [Int.toNat_of_nonpos hlimit]
      rfl
    have hturns : r.chunks.length - r.pos + 2 ≤ r.chunks.length + 2 := by omega
    rcases fill_spec hsrc hturns hcount h with
      ⟨e, r', hfill, herr, hend⟩ | ⟨r', s, hfill, hchunks, hpos, hlt, hreading⟩
    · refine ⟨⟨[], some e, r'⟩, by simp [read, h.err, hlimit, hfill, herr], Nat.zero_le _, todo, rfl, ?_⟩
      exact .inr (hend.imp (fun h => ⟨congrArg some h.1, h.2⟩) fun h => ⟨e, rfl, h⟩)
    · refine ⟨account src r' (src.read len s), by simp [read, h.err, hlimit, hfill, hreading.reader], ?_⟩
      obtain ⟨hlen, rest, htodo, hend⟩ := account_spec hsrc hreading len
      refine ⟨hlen, rest, htodo, hend.imp_left fun ⟨herr, howed, hless⟩ => ⟨herr, howed, fun hpositive => ?_⟩⟩
      -- A chunk has been left behind since.
      refine (hless hpositive).trans ?_
      rw [rank, rank, Prod.Lex.toLex_lt_toLex, hchunks]
      exact .inl (by simp only; omega)

end Specs

end ZClone.Chunker.Linear
