import ZClone.Chunker.LinearReader

/-!
# What a reader of a composite object delivers

- `linearReader_delivers`: chunks that give what they were asked for make a reader of the range of the whole object.
- `linearReader_ends`: as long as no chunk ends early, an error comes, and it is the end only where the range ends. A
  chunk that does end early is asked again and again (`linearReader_hangs`).
-/

namespace ZClone.Chunker.Linear

open List
open Reader (Answer Reply Serves Delivers answers delivers_answers exists_end answers_invariant)

variable {σ β ε γ : Type} {len : Nat}

/-! ## The order of the opens -/

/-- The chunks were opened in their order, and are behind. -/
structure Ordered (r : LinearReader σ ε) : Prop where
  sorted : r.opened.Pairwise (· < ·)
  behind : ∀ i ∈ r.opened, i < r.pos

section Ordered

variable {src : Source σ β ε}

variable {r : LinearReader σ ε} {a : Answer (LinearReader σ ε) β ε}

/-- `r` is the reader before `pos` goes on. -/
theorem Ordered.openChunk (h : Ordered r) (chunk : Chunk σ ε) (offset : Int) :
    Ordered (openChunk src chunk offset { r with pos := r.pos + 1 }).2.2 := by
  obtain ⟨hopened, hpos⟩ : (close src { r with pos := r.pos + 1 }).2.opened = r.opened ∧
    (close src { r with pos := r.pos + 1 }).2.pos = r.pos + 1 := by
    rw [close]
    split <;> exact ⟨rfl, rfl⟩
  have hbehind : ∀ i ∈ r.opened, i < r.pos + 1 := fun i hi => Nat.lt_succ_of_lt (h.behind i hi)
  have hlog : ∀ l, l = r.opened ++ [r.pos] → l.Pairwise (· < ·) ∧ ∀ i ∈ l, i < r.pos + 1 := by
    rintro l rfl
    refine ⟨pairwise_append.mpr ⟨h.sorted, pairwise_singleton _ _, fun i hi j hj => ?_⟩, ?_⟩
    · rw [mem_singleton.mp hj]
      exact h.behind i hi
    · exact forall_mem_append.mpr ⟨hbehind, by simp⟩
  rw [Linear.openChunk]
  split
  · exact ⟨by rw [hopened]; exact h.sorted, by rw [hopened, hpos]; exact hbehind⟩
  · split
    · exact ⟨(hlog _ rfl).1, by simp only [hpos]; exact (hlog _ rfl).2⟩
    · exact ⟨(hlog _ rfl).1, by simp only [hpos]; exact (hlog _ rfl).2⟩

theorem Ordered.nextChunk (h : Ordered r) (offset : Int) : Ordered (nextChunk src offset r).2.2 := by
  rw [Linear.nextChunk]
  by_cases herr : r.err.isSome
  · rw [if_pos herr]
    exact h
  rw [if_neg herr]
  cases r.chunks[r.pos]? with
  | none => exact h
  | some chunk =>
    simp only
    split_ifs
    · exact h
    · exact ⟨h.sorted, fun i hi => Nat.lt_succ_of_lt (h.behind i hi)⟩
    · exact h.openChunk chunk offset

theorem Ordered.skip : ∀ {fuel : Nat} {offset : Int} {err err' : Option ε} {r r' : LinearReader σ ε}, Ordered r →
    skip src fuel offset err r = some (err', r') → Ordered r'
  | fuel + 1, offset, err, err', r, r', h, hskip => by
    rw [Linear.skip] at hskip
    split_ifs at hskip
    · exact Ordered.skip (h.nextChunk offset) hskip
    · obtain ⟨-, rfl⟩ := Prod.mk.inj (Option.some.inj hskip)
      exact h

theorem Ordered.fill : ∀ {fuel : Nat} {returned : Bool} {r r' : LinearReader σ ε}, Ordered r →
    fill src fuel r = some (returned, r') → Ordered r'
  | fuel + 1, returned, r, r', h, hfill => by
    rw [Linear.fill] at hfill
    split_ifs at hfill
    · have hnext : Ordered (Linear.nextChunk src 0 r).2.2 := h.nextChunk 0
      simp only at hfill
      split_ifs at hfill
      · obtain ⟨-, rfl⟩ := Prod.mk.inj (Option.some.inj hfill)
        exact ⟨hnext.sorted, hnext.behind⟩
      · exact Ordered.fill hnext hfill
    · obtain ⟨-, rfl⟩ := Prod.mk.inj (Option.some.inj hfill)
      exact h

variable [DecidableEq ε]

theorem ordered_newLinearReader {chunks : List (Chunk σ ε)} {offset limit : Int}
    (h : newLinearReader src chunks offset limit = some (.ok r)) : Ordered r := by
  rw [newLinearReader] at h
  obtain ⟨⟨err, r'⟩, hskip, h⟩ := Option.bind_eq_some_iff.mp h
  have hr' : Ordered r' := Ordered.skip ⟨List.Pairwise.nil, forall_mem_nil _⟩ hskip
  simp only at h
  split_ifs at h
  · obtain rfl := Except.ok.inj (Option.some.inj h)
    exact ⟨hr'.sorted, hr'.behind⟩
  · obtain ⟨e, -, he⟩ := Option.map_eq_some_iff.mp h
    cases he

theorem read_cases (h : read src len r = some a) :
    a = ⟨[], r.err, r⟩ ∨ a = ⟨[], some src.eof, { r with err := some src.eof }⟩ ∨
      ∃ returned r', fill src (r.chunks.length + 2) r = some (returned, r') ∧
        (a = ⟨[], r'.err, r'⟩ ∨ ∃ s, a = account src r' (src.read len s)) := by
  rw [read] at h
  split_ifs at h
  · exact .inl (Option.some.inj h).symm
  · exact .inr (.inl (Option.some.inj h).symm)
  · obtain ⟨⟨returned, r'⟩, hfill, h⟩ := Option.bind_eq_some_iff.mp h
    refine .inr (.inr ⟨returned, r', hfill, ?_⟩)
    simp only at h
    split_ifs at h
    · exact .inl (Option.some.inj h).symm
    · obtain ⟨s, -, h⟩ := Option.bind_eq_some_iff.mp h
      exact .inr ⟨s, (Option.some.inj h).symm⟩

theorem Ordered.read (h : Ordered r) (hread : read src len r = some a) : Ordered a.state := by
  rcases read_cases hread with rfl | rfl | ⟨returned, r', hfill, rfl | ⟨s, rfl⟩⟩
  · exact h
  · exact ⟨h.sorted, h.behind⟩
  · exact h.fill hfill
  · have hr' := h.fill hfill
    rw [account]
    split <;> exact ⟨hr'.sorted, hr'.behind⟩

/-- An error is kept, and reported from then on. -/
theorem read_of_err {e : ε}
    (h : read src len r = some a) (herr : a.err = some e) (len' : Nat) :
    read src len' a.state = some ⟨[], some e, a.state⟩ := by
  have hkept : a.state.err = a.err := by
    rcases read_cases h with rfl | rfl | ⟨returned, r', -, rfl | ⟨s, rfl⟩⟩
    · rfl
    · rfl
    · rfl
    · rw [account]
      split <;> rfl
  rw [Linear.read, hkept, herr]
  rfl

end Ordered

/-! ## Whole runs -/

section Runs

variable [DecidableEq ε] [Preorder γ] [WellFoundedLT γ] (src : Source σ β ε) (Owes : σ → List β → Prop) (μ : σ → γ)
  (chunks : List (Chunk σ ε)) (contents : List (List β)) (offset : Nat) (limit : Int)

/-- If opening, reading and closing the chunks does not fail, a reader is made. However long the buffers are, the
replies are the bytes of the range in order and then the end, and the chunks are opened in their order; if no buffer is
empty the end comes. -/
theorem linearReader_delivers (hsrc : Contract src (fun _ => False) Owes μ)
    (hchunks : List.Forall₂ (Describes (fun _ => False) Owes) chunks contents) :
    ∃ r, newLinearReader src chunks offset limit = some (.ok r) ∧
      (∀ lens : List Nat, ∃ replies r', answers (read src) r lens = some (replies, r') ∧
        Delivers src.eof ((contents.flatten.drop offset).take limit.toNat) replies ∧ r'.opened.Pairwise (· < ·)) ∧
      ∀ lens : Nat → Nat, (∀ i, 0 < lens i) → ∃ n replies last r',
        answers (read src) r ((List.range (n + 1)).map lens) = some (replies ++ [last], r') ∧ last.err = some src.eof ∧
          (replies ++ [last]).flatMap (·.bytes) = (contents.flatten.drop offset).take limit.toNat := by
  obtain ⟨r, hnew, howed⟩ | ⟨e, -, hfails⟩ := newLinearReader_spec hsrc hchunks offset limit
  · refine ⟨r, hnew, fun lens => ?_, fun lens hlens => ?_⟩
    · obtain ⟨replies, r', hanswers, hdelivers⟩ : ∃ replies r', answers (read src) r lens = some (replies, r') ∧
          Delivers src.eof ((contents.flatten.drop offset).take limit.toNat) replies :=
        delivers_answers (fun len h => read_spec hsrc len h) (fun h herr => read_of_err h herr) (fun _ => id) howed
      have hordered := answers_invariant (fun h hread => Ordered.read h hread) (ordered_newLinearReader hnew) hanswers
      exact ⟨replies, r', hanswers, hdelivers, hordered.sorted⟩
    · obtain ⟨n, replies, last, r', hanswers, -, rest, htodo, ⟨herr, rfl⟩ | ⟨e, -, hfails⟩⟩ :=
        exists_end (fun len h => read_spec hsrc len h) howed lens hlens
      · exact ⟨n, replies, last, r', hanswers, herr, by rw [htodo, append_nil]⟩
      · exact hfails.elim
  · exact hfails.elim

/-- If no chunk ends before the bytes it was asked for, and the range ends in the object: after finitely many reads with
buffers that are not empty there is an error, and if it is the end then all bytes of the range have been delivered. -/
theorem linearReader_ends (hsrc : Contract src (· ≠ src.eof) Owes μ)
    (hchunks : List.Forall₂ (Describes (· ≠ src.eof) Owes) chunks contents)
    (hrange : offset + limit ≤ contents.flatten.length) :
    (∃ e, newLinearReader src chunks offset limit = some (.error e) ∧ e ≠ src.eof) ∨
      ∃ r, newLinearReader src chunks offset limit = some (.ok r) ∧ ∀ lens : Nat → Nat, (∀ i, 0 < lens i) →
        ∃ n replies last r' e, answers (read src) r ((List.range (n + 1)).map lens) = some (replies ++ [last], r') ∧
          (∀ reply ∈ replies, reply.err = none) ∧ last.err = some e ∧
          (e = src.eof → limit ≤ ((replies ++ [last]).flatMap (·.bytes)).length) := by
  obtain ⟨r, hnew, howed⟩ | ⟨e, hnew, hfails⟩ := newLinearReader_spec hsrc hchunks offset limit
  · refine .inr ⟨r, hnew, fun lens hlens => ?_⟩
    obtain ⟨n, replies, last, r', hanswers, hnone, rest, htodo, ⟨herr, rfl⟩ | ⟨e, herr, hfails⟩⟩ :=
      exists_end (fun len h => read_spec hsrc len h) howed lens hlens
    · refine ⟨n, replies, last, r', src.eof, hanswers, hnone, herr, fun _ => ?_⟩
      have hlength := congrArg length htodo
      rw [append_nil, length_take, length_drop] at hlength
      omega
    · exact ⟨n, replies, last, r', e, hanswers, hnone, herr, fun heof => absurd heof hfails⟩
  · exact .inl ⟨e, hnew, hfails⟩

end Runs

/-! ## A remote in memory -/

inductive Failure where
  | eof
  | broken
  deriving DecidableEq

/-- A chunk that is open has a list of pieces to give, and then reports the end. -/
def memory : Source (List (List Nat)) Nat Failure where
  eof := .eof
  read len
    | [] => ⟨[], some .eof, []⟩
    | piece :: more =>
      if piece.length ≤ len then ⟨piece, none, more⟩ else ⟨piece.take len, none, piece.drop len :: more⟩
  close _ := none

def memoryChunk (content : List Nat) : Chunk (List (List Nat)) Failure where
  size := content.length
  openRange start stop := .ok [(content.drop start.toNat).take (stop - start + 1).toNat]

theorem memory_contract (Fails : Failure → Prop) (heof : ¬ Fails .eof) :
    Contract memory Fails (fun pieces todo => pieces.flatten = todo) fun pieces =>
      pieces.flatten.length + pieces.length where
  eof := heof
  close := nofun
  read {pieces todo} len howes := by
    subst howes
    rcases pieces with - | ⟨piece, more⟩
    · exact ⟨Nat.zero_le _, [], rfl, .inr (.inl ⟨rfl, rfl⟩)⟩
    · by_cases hle : piece.length ≤ len
      · simp only [memory, if_pos hle]
        refine ⟨hle, more.flatten, rfl, .inl ⟨rfl, rfl, fun _ => ?_⟩⟩
        simp only [flatten_cons, length_append, length_cons]
        omega
      · simp only [memory, if_neg hle]
        refine ⟨length_take_le _ _, piece.drop len ++ more.flatten, ?_, .inl ⟨rfl, rfl, fun _ => ?_⟩⟩
        · simp only [flatten_cons]
          rw [← append_assoc, take_append_drop]
        · simp only [flatten_cons, length_append, length_cons, length_drop]
          omega

theorem memoryChunk_describes (Fails : Failure → Prop) (content : List Nat) :
    Describes Fails (fun pieces todo => pieces.flatten = todo) (memoryChunk content) content where
  size := rfl
  opens start n _ _ := by
    refine .inl ⟨_, rfl, ?_⟩
    rw [Int.toNat_natCast, show ((start : Int) + n - 1 - start + 1).toNat = n by omega]
    simp

/-- A range over the end of the first chunk, an empty chunk and the end of the object. -/
theorem linearReader_delivers_memory :
    ∃ r, newLinearReader memory [memoryChunk [1, 2], memoryChunk [], memoryChunk [3]] (1 : Nat) 5 = some (.ok r) ∧
      ∀ lens : List Nat, ∃ replies r', answers (read memory) r lens = some (replies, r') ∧
        Delivers .eof [2, 3] replies := by
  obtain ⟨r, hnew, hdelivers, -⟩ :=
    linearReader_delivers memory _ _ [memoryChunk [1, 2], memoryChunk [], memoryChunk [3]]
    [[1, 2], [], [3]] 1 5 (memory_contract _ id)
    (.cons (memoryChunk_describes _ _) (.cons (memoryChunk_describes _ _) (.cons (memoryChunk_describes _ _) .nil)))
  refine ⟨r, hnew, fun lens => ?_⟩
  obtain ⟨replies, r', hanswers, hbytes, -⟩ := hdelivers lens
  exact ⟨replies, r', hanswers, hbytes⟩

theorem linearReader_ends_memory :
    (∃ e, newLinearReader memory [memoryChunk [1, 2]] (1 : Nat) 1 = some (.error e) ∧ e ≠ .eof) ∨
      ∃ r, newLinearReader memory [memoryChunk [1, 2]] (1 : Nat) 1 = some (.ok r) ∧
        ∃ n replies last r' e, answers (read memory) r ((List.range (n + 1)).map fun _ => 1) =
          some (replies ++ [last], r') ∧
          last.err = some e ∧ (e = .eof → 1 ≤ ((replies ++ [last]).flatMap (·.bytes)).length) := by
  refine (linearReader_ends memory _ _ [memoryChunk [1, 2]] [[1, 2]] 1 1 (memory_contract _ fun h => h rfl)
    (.cons (memoryChunk_describes _ _) .nil) (by decide)).imp_right fun ⟨r, hnew, hends⟩ => ?_
  obtain ⟨n, replies, last, r', e, hanswers, -, herr, hall⟩ := hends (fun _ => 1) fun _ => Nat.one_pos
  exact ⟨r, hnew, n, replies, last, r', e, hanswers, herr, fun heof => by exact_mod_cast hall heof⟩

/-- A chunk of two bytes of which only one comes. -/
def shortChunk : Chunk (List (List Nat)) Failure := ⟨2, fun _ _ => .ok [[7]]⟩

/-- Its reader with the first byte or without. -/
def waiting (left : Int) (pieces : List (List Nat)) : LinearReader (List (List Nat)) Failure :=
  ⟨[shortChunk], left, left, 1, some pieces, none, [0]⟩

theorem read_waiting_one (hlen : 0 < len) : read memory len (waiting 2 [[7]]) = some ⟨[7], none, waiting 1 []⟩ := by
  have hread : memory.read len [[7]] = ⟨[7], none, []⟩ := by
    simp only [memory, length_singleton]
    rw [if_pos (Nat.one_le_iff_ne_zero.mpr hlen.ne')]
  have hfilled : read memory len (waiting 2 [[7]]) = some (account memory (waiting 2 [[7]]) (memory.read len [[7]])) :=
    rfl
  rw [hfilled, hread]
  rfl

theorem answers_waiting_nil : ∀ lens : List Nat,
    answers (read memory) (waiting 1 []) lens = some (lens.map fun _ => ⟨[], none⟩, waiting 1 [])
  | [] => rfl
  | len :: lens => by
    have hread : read memory len (waiting 1 []) = some ⟨[], none, waiting 1 []⟩ := rfl
    rw [answers, hread, Option.bind_eq_bind, Option.bind_some, answers_waiting_nil lens]
    rfl

/-- After the byte that comes, no read reports an error or anything else. -/
theorem linearReader_hangs : ∃ r, newLinearReader memory [shortChunk] 0 2 = some (.ok r) ∧
      ∀ lens : List Nat, (∀ len ∈ lens, 0 < len) → ∃ replies r', answers (read memory) r lens = some (replies, r') ∧
        ∀ reply ∈ replies, reply.err = none := by
  refine ⟨waiting 2 [[7]], rfl, fun lens hlens => ?_⟩
  cases lens with
  | nil => exact ⟨[], _, rfl, forall_mem_nil _⟩
  | cons len lens =>
    have hfirst := read_waiting_one (hlens len mem_cons_self)
    refine ⟨⟨[7], none⟩ :: lens.map fun _ => ⟨[], none⟩, waiting 1 [], ?_, by simp⟩
    rw [answers, hfirst, Option.bind_eq_bind, Option.bind_some, answers_waiting_nil]
    rfl

end ZClone.Chunker.Linear
