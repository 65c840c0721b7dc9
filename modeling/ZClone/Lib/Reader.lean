import Mathlib.Data.List.Basic
import Mathlib.Order.WellFounded

/-!
# Readers

A reader is asked for some bytes at a time and gives as many as it likes, until it reports the end.

- `Honest` is the contract of a reader: which bytes a state still has to give is a relation `Owes`.
- `readFill` asks again until a buffer is full; `filled_readFill` says that the sizes of the answers make no difference.
- `readAll` asks up to the end; `readAll_spec` says that the sizes of the buffers make no difference.
- `Follows` says that the answers to some requests are the bytes that were owed.
- `Serves` is the contract of one answer of a reader that may fail or be idle; `delivers_answers` and `exists_end` say
  what it gives for a run of reads, and that the run has an end.
-/

namespace ZClone.Reader

open List

variable {σ β ε : Type} {s : σ} {eof : ε} {todo : List β}

/-- An answer: some bytes, perhaps an error, and the state to ask next. -/
structure Answer (σ β ε : Type) where
  bytes : List β
  err : Option ε
  state : σ

/-- The reader keeps the contract: it gives the bytes it owes in order and reports the end with the last of them or
behind. `idle` bounds how many empty answers in a row a state may still give, and `most` is a bound for all states. -/
structure Honest (eof : ε) (read : Nat → σ → Answer σ β ε) (Owes : σ → List β → Prop) (idle : σ → Nat) (most : Nat) :
    Prop where
  idle_le : ∀ s, idle s ≤ most
  gives : ∀ {s todo} (len : Nat), Owes s todo →
    (read len s).bytes.length ≤ len ∧
      ∃ rest, todo = (read len s).bytes ++ rest ∧ Owes (read len s).state rest ∧
        (((read len s).err = none ∧ (0 < len → (read len s).bytes ≠ [] ∨ idle (read len s).state < idle s)) ∨
          ((read len s).err = some eof ∧ rest = []))

/-- What a reader gives that is never idle. -/
def Gives (eof : ε) (Owes : σ → List β → Prop) (todo : List β) (len : Nat) (r : Answer σ β ε) : Prop :=
  r.bytes.length ≤ len ∧ ∃ rest, todo = r.bytes ++ rest ∧ Owes r.state rest ∧
    ((r.err = none ∧ (0 < len → r.bytes ≠ [])) ∨ (r.err = some eof ∧ rest = []))

theorem honest_of_gives {read : Nat → σ → Answer σ β ε} {Owes : σ → List β → Prop}
    (h : ∀ {s todo} len, Owes s todo → Gives eof Owes todo len (read len s)) : Honest eof read Owes (fun _ => 0) 0 where
  idle_le _ := Nat.le_refl 0
  gives len howes := by
    obtain ⟨hle, rest, htodo, hrest, hend⟩ := h len howes
    exact ⟨hle, rest, htodo, hrest, hend.imp_left (And.imp_right fun hne hpos => .inl (hne hpos))⟩

/-- Ask again until `len` bytes are there. -/
def fillLoop (read : Nat → σ → Answer σ β ε) : Nat → Nat → σ → Answer σ β ε
  | 0, _, s => ⟨[], none, s⟩
  | fuel + 1, len, s =>
    if len = 0 then ⟨[], none, s⟩
    else
      let first := read len s
      match first.err with
      | some e => ⟨first.bytes, some e, first.state⟩
      | none =>
        let more := fillLoop read fuel (len - first.bytes.length) first.state
        ⟨first.bytes ++ more.bytes, more.err, more.state⟩

/-- `ReadFill` for a buffer of `len` bytes, with a turn for each byte and for the empty answers before it. -/
def readFill (read : Nat → σ → Answer σ β ε) (most len : Nat) (s : σ) : Answer σ β ε :=
  fillLoop read (len * (most + 1)) len s

section Fill

variable {eof : ε} {read : Nat → σ → Answer σ β ε} {Owes : σ → List β → Prop} {idle : σ → Nat} {most : Nat}

/-- The answer of a filled buffer: all that is owed up to its length, whatever the sizes of the single answers. -/
def Filled (eof : ε) (Owes : σ → List β → Prop) (todo : List β) (len : Nat) (r : Answer σ β ε) : Prop :=
  r.bytes = todo.take len ∧ Owes r.state (todo.drop len) ∧
    (r.err = none ∧ len ≤ todo.length ∨ r.err = some eof ∧ todo.length ≤ len)

theorem filled_zero (howes : Owes s todo) : Filled eof Owes todo 0 ⟨[], none, s⟩ :=
  ⟨rfl, howes, .inl ⟨rfl, Nat.zero_le _⟩⟩

theorem fillLoop_spec (h : Honest eof read Owes idle most) :
    ∀ {fuel len : Nat} {s : σ} {todo : List β}, len * (most + 1) + idle s ≤ fuel + most → Owes s todo →
      Filled eof Owes todo len (fillLoop read fuel len s)
  | 0, 0, _, _, _, howes => filled_zero howes
  | 0, len + 1, s, todo, hfuel, howes => by
    rw [Nat.succ_mul] at hfuel
    omega
  | fuel + 1, len, s, todo, hfuel, howes => by
    rw [fillLoop]
    by_cases hlen : len = 0
    · subst hlen
      exact filled_zero howes
    obtain ⟨hle, rest, rfl, hrest, hend⟩ := h.gives len howes
    rw [if_neg hlen]
    dsimp only
    obtain ⟨herr, hprogress⟩ | ⟨herr, rfl⟩ := hend
    · rw [herr]
      -- a byte pays for the empty answers before the next one, an empty answer for itself
      have hfuel' : (len - (read len s).bytes.length) * (most + 1) + idle (read len s).state ≤ fuel + most := by
        obtain hbytes | hidle := hprogress (by omega)
        · have hpos : 0 < (read len s).bytes.length := length_pos_iff.mpr hbytes
          have hmul : (len - (read len s).bytes.length) * (most + 1) ≤ (len - 1) * (most + 1) :=
            Nat.mul_le_mul_right _ (by omega)
          have hlast : (len - 1) * (most + 1) + (most + 1) = len * (most + 1) := by
            rw [← Nat.succ_mul, Nat.succ_eq_add_one, Nat.sub_add_cancel (by omega)]
          have hidle := h.idle_le (read len s).state
          omega
        · have hmul : (len - (read len s).bytes.length) * (most + 1) ≤ len * (most + 1) :=
            Nat.mul_le_mul_right _ (by omega)
          omega
      obtain ⟨hbytes, howes', hcase⟩ := fillLoop_spec h hfuel' hrest
      refine ⟨?_, ?_, ?_⟩
      · rw [hbytes, take_append, take_of_length_le hle]
      · rw [drop_append, drop_eq_nil_of_le hle]
        exact howes'
      · rw [length_append]
        obtain ⟨herr', hle'⟩ | ⟨herr', hle'⟩ := hcase
        · exact .inl ⟨herr', by omega⟩
        · exact .inr ⟨herr', by omega⟩
    · rw [herr]
      refine ⟨?_, ?_, .inr ⟨rfl, by simpa using hle⟩⟩
      · rw [append_nil, take_of_length_le hle]
      · rw [append_nil, drop_eq_nil_of_le hle]
        exact hrest

theorem filled_readFill (h : Honest eof read Owes idle most) (howes : Owes s todo) (len : Nat) :
    Filled eof Owes todo len (readFill read most len s) :=
  fillLoop_spec h (Nat.add_le_add_left (h.idle_le s) _) howes

end Fill

/-- Asks with buffers of these lengths up to an error: the bytes, and the error if there was one. -/
def readAll (read : Nat → σ → Answer σ β ε) : List Nat → σ → List β × Option ε
  | [], _ => ([], none)
  | len :: lens, s =>
    let a := read len s
    match a.err with
    | some e => (a.bytes, some e)
    | none => (a.bytes ++ (readAll read lens a.state).1, (readAll read lens a.state).2)

/-- Every buffer that is not empty brings a byte or the end, and the end is behind all bytes. -/
theorem readAll_spec {read : Nat → σ → Answer σ β ε} {Owes : σ → List β → Prop}
    (h : Honest eof read Owes (fun _ => 0) 0)
    (lens : List Nat) : ∀ {s : σ} {todo : List β}, Owes s todo → ∃ rest, todo = (readAll read lens s).1 ++ rest ∧
      (((readAll read lens s).2 = none ∧ lens.countP (0 < ·) ≤ (readAll read lens s).1.length) ∨
        ((readAll read lens s).2 = some eof ∧ rest = [])) := by
  induction lens with
  | nil => exact fun {_ todo} _ => ⟨todo, rfl, .inl ⟨rfl, Nat.le_refl 0⟩⟩
  | cons len lens ih =>
    intro s todo howes
    obtain ⟨-, rest, htodo, hrest, ⟨herr, hbytes⟩ | ⟨herr, rfl⟩⟩ := h.gives len howes
    · obtain ⟨rest', hrest', hend⟩ := ih hrest
      simp only [readAll, herr]
      refine ⟨rest', by rw [htodo, hrest', append_assoc], hend.imp_left (And.imp_right fun hle => ?_)⟩
      rw [countP_cons, length_append]
      by_cases hpos : 0 < len
      · have hne := length_pos_iff.mpr ((hbytes hpos).resolve_right (Nat.lt_irrefl 0))
        simp only [hpos, decide_true, if_true]
        omega
      · simp only [hpos, decide_false, Bool.false_eq_true, if_false]
        omega
    · simp only [readAll, herr]
      exact ⟨[], htodo, .inr ⟨trivial, rfl⟩⟩

/-! ## Transcripts -/

/-- A request to go to another place, or one for some bytes. -/
inductive Request (κ : Type) where
  | seek (place : κ)
  | read (len : Nat)

/-- The answer to a request: the bytes, and the error of a request. -/
structure Reply (β ε : Type) where
  bytes : List β
  err : Option ε

/-- The replies to the requests are the bytes from the place of the last seek on, in order and without gaps, and the end
is reported when there are no more and not before. -/
def Follows {κ : Type} (eof : ε) (todoAt : κ → List β) (SeekOk : κ → Option ε → Prop) :
    List β → List (Request κ × Reply β ε) → Prop
  | _, [] => True
  | _, (.seek place, reply) :: more =>
    reply.bytes = [] ∧ SeekOk place reply.err ∧ Follows eof todoAt SeekOk (todoAt place) more
  | todo, (.read len, reply) :: more =>
    reply.bytes.length ≤ len ∧ ∃ rest, todo = reply.bytes ++ rest ∧
      ((reply.err = none ∧ (0 < len → reply.bytes ≠ [])) ∨ (reply.err = some eof ∧ rest = [])) ∧
        Follows eof todoAt SeekOk rest more

/-- The replies of a machine to a list of requests. -/
def transcript {κ : Type} (seek : κ → σ → Option ε × σ) (read : Nat → σ → Answer σ β ε) :
    σ → List (Request κ) → List (Request κ × Reply β ε)
  | _, [] => []
  | s, .seek place :: more =>
    let r := seek place s
    (.seek place, ⟨[], r.1⟩) :: transcript seek read r.2 more
  | s, .read len :: more =>
    let r := read len s
    (.read len, ⟨r.bytes, r.err⟩) :: transcript seek read r.state more

/-- A machine whose reads are honest and whose seeks lead to the places they are for answers as it should. -/
theorem follows_transcript {κ : Type} {seek : κ → σ → Option ε × σ} {read : Nat → σ → Answer σ β ε}
    {Owes : σ → List β → Prop} {todoAt : κ → List β} {SeekOk : κ → Option ε → Prop} {Valid : κ → Prop}
    {idle : σ → Nat} (hread : Honest eof read Owes idle 0)
    (hseek : ∀ {s todo} place, Valid place → Owes s todo → SeekOk place (seek place s).1 ∧
      Owes (seek place s).2 (todoAt place)) :
    ∀ {requests : List (Request κ)} {s : σ} {todo : List β}, (∀ place, .seek place ∈ requests → Valid place) →
      Owes s todo → Follows eof todoAt SeekOk todo (transcript seek read s requests)
  | [], _, _, _, _ => trivial
  | .seek place :: more, s, todo, hvalid, howes => by
    obtain ⟨hok, howes'⟩ := hseek place (hvalid place mem_cons_self) howes
    exact ⟨rfl, hok, follows_transcript hread hseek (fun p hp => hvalid p (mem_cons_of_mem _ hp)) howes'⟩
  | .read len :: more, s, todo, hvalid, howes => by
    obtain ⟨hle, rest, htodo, howes', hend⟩ := hread.gives len howes
    refine ⟨hle, rest, htodo, hend.imp_left (And.imp_right fun hprogress hpos => ?_),
      follows_transcript hread hseek (fun p hp => hvalid p (mem_cons_of_mem _ hp)) howes'⟩
    -- such a machine is never idle
    have hidle := hread.idle_le s
    exact (hprogress hpos).resolve_right (by omega)

/-! ## Readers that may fail -/

section Serves

variable {γ : Type} [LT γ]

/-- An answer of a reader that owes `todo`: the next bytes, with the end behind the last of them or with an error that
`Fails` allows. What an answer without an error does to a buffer that is not empty can not go on for ever. -/
def Serves (eof : ε) (Fails : ε → Prop) (Owes : σ → List β → Prop) (μ : σ → γ) (len : Nat) (s : σ) (todo : List β)
    (a : Answer σ β ε) : Prop :=
  a.bytes.length ≤ len ∧ ∃ rest, todo = a.bytes ++ rest ∧
    ((a.err = none ∧ Owes a.state rest ∧ (0 < len → μ a.state < μ s)) ∨ (a.err = some eof ∧ rest = []) ∨
      ∃ e, a.err = some e ∧ Fails e)

/-- The replies to reads with buffers of these lengths. -/
def answers (read : Nat → σ → Option (Answer σ β ε)) : σ → List Nat → Option (List (Reply β ε) × σ)
  | s, [] => some ([], s)
  | s, len :: lens => do
    let a ← read len s
    let (replies, s') ← answers read a.state lens
    some (⟨a.bytes, a.err⟩ :: replies, s')

/-- The bytes in order, up to the reply that reports the end; there all are delivered, and the end is all that
follows. -/
def Delivers (eof : ε) : List β → List (Reply β ε) → Prop
  | _, [] => True
  | todo, reply :: more =>
    (reply.err = none ∧ ∃ rest, todo = reply.bytes ++ rest ∧ Delivers eof rest more) ∨
      (reply.err = some eof ∧ todo = reply.bytes ∧ ∀ later ∈ more, later = ⟨[], some eof⟩)

variable {eof : ε} {Fails : ε → Prop} {Owes : σ → List β → Prop} {μ : σ → γ} {read : Nat → σ → Option (Answer σ β ε)}

/-- A reader that has come to its end stays there. -/
theorem answers_of_ended (h : ∀ len, read len s = some ⟨[], some eof, s⟩) :
    ∀ lens : List Nat, answers read s lens = some (lens.map fun _ => ⟨[], some eof⟩, s)
  | [] => rfl
  | len :: lens => by
    rw [answers, h, Option.bind_eq_bind, Option.bind_some, answers_of_ended h lens]
    rfl

theorem delivers_answers (hserves : ∀ {s todo} (len : Nat), Owes s todo → ∃ a, read len s = some a ∧
      Serves eof Fails Owes μ len s todo a)
    (hended : ∀ {len s a}, read len s = some a → a.err = some eof →
      ∀ len, read len a.state = some ⟨[], some eof, a.state⟩)
    (hfails : ∀ e, ¬ Fails e) : ∀ {lens : List Nat} {s : σ} {todo : List β}, Owes s todo →
      ∃ replies s', answers read s lens = some (replies, s') ∧ Delivers eof todo replies
  | [], s, todo, _ => ⟨[], s, rfl, trivial⟩
  | len :: lens, s, todo, howes => by
    obtain ⟨a, hread, -, rest, htodo, ⟨herr, hrest, -⟩ | ⟨herr, rfl⟩ | ⟨e, -, he⟩⟩ := hserves len howes
    · obtain ⟨replies, s', hmore, hdelivers⟩ : ∃ replies s', answers read a.state lens = some (replies, s') ∧
        Delivers eof rest replies := delivers_answers hserves hended hfails hrest
      refine ⟨⟨a.bytes, a.err⟩ :: replies, s', ?_, .inl ⟨herr, rest, htodo, hdelivers⟩⟩
      simp [answers, hread, hmore]
    · have hmore := answers_of_ended (hended hread herr) lens
      refine ⟨⟨a.bytes, a.err⟩ :: lens.map fun _ => ⟨[], some eof⟩, a.state, ?_, .inr ⟨herr, ?_, ?_⟩⟩
      · simp [answers, hread, hmore]
      · rw [htodo, append_nil]
      · simp
    · exact absurd he (hfails e)

/-- Whatever the buffers, if none is empty: there is a first answer with an error, and it is the end behind all bytes or
one that `Fails` allows. By induction on what the answers make smaller. -/
theorem exists_end [WellFoundedLT γ] (hserves : ∀ {s todo} (len : Nat), Owes s todo → ∃ a, read len s = some a ∧
      Serves eof Fails Owes μ len s todo a) (howes : Owes s todo) (lens : Nat → Nat)
    (hlens : ∀ i, 0 < lens i) :
    ∃ n replies last s', answers read s ((List.range (n + 1)).map lens) = some (replies ++ [last], s') ∧
      (∀ reply ∈ replies, reply.err = none) ∧ (∃ rest, todo = (replies ++ [last]).flatMap (·.bytes) ++ rest ∧
        ((last.err = some eof ∧ rest = []) ∨ ∃ e, last.err = some e ∧ Fails e)) := by
  induction hμ : μ s using WellFoundedLT.induction generalizing s todo lens with
  | ind m ih =>
    obtain ⟨a, hread, -, rest, htodo, hend⟩ := hserves (lens 0) howes
    rcases hend with ⟨herr, hrest, hless⟩ | hend
    · have hless : μ a.state < m := hμ ▸ hless (hlens 0)
      obtain ⟨n, replies, last, s', hmore, hnone, rest', hrest', hlast⟩ :=
        ih _ hless hrest (fun i => lens (i + 1)) (fun i => hlens (i + 1)) rfl
      refine ⟨n + 1, ⟨a.bytes, a.err⟩ :: replies, last, s', ?_, forall_mem_cons.mpr ⟨herr, hnone⟩, rest', ?_, hlast⟩
      · rw [range_succ_eq_map, map_cons, map_map, answers, hread, Option.bind_eq_bind, Option.bind_some]
        simp only [Function.comp_def, Nat.succ_eq_add_one]
        rw [hmore]
        rfl
      · rw [htodo, hrest']
        simp
    · refine ⟨0, [], ⟨a.bytes, a.err⟩, a.state, ?_, forall_mem_nil _, rest, by simpa using htodo, ?_⟩
      · simp [answers, hread]
      · exact hend

/-- What every read keeps a run keeps. -/
theorem answers_invariant {P : σ → Prop} (hP : ∀ {len s a}, P s → read len s = some a → P a.state) :
    ∀ {lens : List Nat} {s s' : σ} {replies : List (Reply β ε)}, P s → answers read s lens = some (replies, s') → P s'
  | [], s, s', replies, hs, h => by
    obtain ⟨-, rfl⟩ := Prod.mk.inj (Option.some.inj h)
    exact hs
  | len :: lens, s, s', replies, hs, h => by
    rw [answers] at h
    obtain ⟨a, hread, h⟩ := Option.bind_eq_some_iff.mp h
    obtain ⟨⟨replies', s''⟩, hmore, h⟩ := Option.bind_eq_some_iff.mp h
    obtain ⟨-, rfl⟩ := Prod.mk.inj (Option.some.inj h)
    exact answers_invariant hP (hP hs hread) hmore

end Serves

end ZClone.Reader
