import Mathlib.Tactic.SplitIfs
import ZClone.Operations.OpenOptions

/-!
# A reader that reopens the object on errors (`fs/operations/reopen.go`)

`ReOpen` reads an object or a range of it. When a read fails it opens the object again behind the bytes it has
delivered, and a seek is carried out by the next read in the same way.

- `Setup` is a source with the answers its streams give; `newReOpen`, `read`, `readAt` and `seek` are the code.
- `Lined` says that a stream that is opened at an offset continues the requested range, `lined_of_fits` when it does.
- `reopen_transparent`: then every sequence of calls is answered as by a reader of the range that never fails;
  `reopen_not_transparent` shows two ways in which it is not.
-/

namespace ZClone.Operations.ReOpen

open List

/-- What a handle is created with. -/
inductive Request where
  | whole
  | range (o : RangeOption)
  | seek (offset : Int)

/-- The bytes a single stream delivers for the request. -/
def Request.bytes {β : Type} (content : List β) : Request → List β
  | .whole => content
  | .range o => o.bytes content
  | .seek offset => content.drop offset.toNat

/-- The start and the limit `NewReOpen` takes from the request; the end of the file is not known yet. -/
def Request.decode : Request → Int × Int
  | .whole => (0, -1)
  | .range o => o.decode 0
  | .seek offset => (offset, -1)

/-- The values are those of an `int64`. -/
def Request.InRange : Request → Prop
  | .whole => True
  | .range o => o.start < 2 ^ 63 ∧ o.last < 2 ^ 63
  | .seek offset => offset < 2 ^ 63

/-- How a stream answers a read: with one byte and up to `more` others, perhaps with the end together with the last of
them; or with an error behind some bytes. Without a byte left it reports the end. An answer without bytes and without an
error changes nothing, so it is not counted. -/
inductive Answer where
  | give (more : Nat) (eof : Bool)
  | fail (count : Nat) (retry : Bool)

structure Setup (β : Type) where
  content : List β
  size : Int
  request : Request
  maxTries : Nat
  answers : Nat → Answer
  opens : Nat → Bool
  size_eq : 0 ≤ size → size = content.length
  length_lt : content.length < 2 ^ 63
  inRange : request.InRange

inductive Failure where
  | tooManyTries
  | openFailed
  | readFailed
  deriving DecidableEq

inductive Err where
  | eof
  | failed (f : Failure)
  | invalidWhence
  | negativeSeek
  | seekPastEnd
  | badEndSeek
  deriving DecidableEq

/-- `rest` is what the open stream has not delivered yet; `clock` and `opened` count the answers and the opens. -/
structure Handle (β : Type) where
  offset : Nat
  newOffset : Option Nat
  tries : Nat
  err : Option Failure
  rest : List β
  clock : Nat
  opened : Nat

section Code

variable {β : Type} (c : Setup β)

def Setup.start : Int := c.request.decode.1

def Setup.limit : Int := c.request.decode.2

def Setup.stop : Int := if 0 ≤ c.limit ∧ 0 ≤ c.size then int64 (c.start + c.limit) else c.size

/-- The end of the range for later opens. -/
def Setup.last : Int := if 0 ≤ c.limit ∧ 0 ≤ c.size then int64 (c.stop - 1) else -1

/-- The stream of an open at an offset. -/
def Setup.stream (offset : Nat) : List β :=
  if offset = 0 then c.request.bytes c.content
  else RangeOption.bytes ⟨int64 (c.start + offset), c.last⟩ c.content

def Setup.openSrc (h : Handle β) : Handle β :=
  if c.maxTries < h.tries + 1 then { h with tries := h.tries + 1, err := some .tooManyTries }
  else if c.opens h.opened then
    { h with tries := h.tries + 1, opened := h.opened + 1, err := none, rest := c.stream h.offset }
  else { h with tries := h.tries + 1, opened := h.opened + 1, err := some .openFailed }

def Setup.newReOpen : Option (Handle β) :=
  let h := c.openSrc ⟨0, none, 0, none, [], 0, 0⟩
  if h.err = none then some h else none

structure Result (β : Type) where
  bytes : List β
  err : Option Err
  handle : Handle β

def Handle.advance (h : Handle β) (n : Nat) : Handle β :=
  { h with rest := h.rest.drop n, offset := h.offset + n, clock := h.clock + 1 }

/-- The loop of `Read`, with a turn for every byte and every try. -/
def Setup.readLoop : Nat → Nat → Handle β → Result β
  | 0, _, h => ⟨[], none, h⟩
  | fuel + 1, want, h =>
    if want = 0 then ⟨[], none, h⟩
    else
      match c.answers h.clock with
      | .give more eof =>
        if h.rest = [] then ⟨[], some .eof, h.advance 0⟩
        else
          let got := h.rest.take (min (more + 1) want)
          let h := h.advance got.length
          if eof = true ∧ h.rest = [] then ⟨got, some .eof, h⟩
          else
            let r := Setup.readLoop fuel (want - got.length) h
            ⟨got ++ r.bytes, r.err, r.handle⟩
      | .fail count retry =>
        let got := h.rest.take (min count want)
        let h := { h.advance got.length with err := some .readFailed }
        if retry then
          let h := c.openSrc h
          if h.err = none then
            let r := Setup.readLoop fuel (want - got.length) h
            ⟨got ++ r.bytes, r.err, r.handle⟩
          else ⟨got, some (.failed .readFailed), h⟩
        else ⟨got, some (.failed .readFailed), h⟩

/-- The seek that is still to be done. -/
def Setup.settle (h : Handle β) : Handle β :=
  match h.newOffset with
  | none => h
  | some p =>
    if h.offset = p then { h with newOffset := none }
    else
      let h := c.openSrc { h with offset := p }
      if h.err = none then { h with newOffset := none } else h

def Setup.read (len : Nat) (h : Handle β) : Result β :=
  match h.err with
  | some f => ⟨[], some (.failed f), h⟩
  | none =>
    let h := c.settle h
    match h.err with
    | some f => ⟨[], some (.failed f), h⟩
    | none => c.readLoop (len + c.maxTries + 1) len h

inductive Whence where
  | start
  | current
  | fromEnd
  | invalid

/-- Where a seek goes to, for a position and a length. -/
def target (known : Bool) (len : Int) (pos : Nat) (offset : Int) : Whence → Except Err Nat
  | .start => check offset
  | .current => check (int64 (pos + offset))
  | .fromEnd => if known then check (int64 (len + offset)) else .error .badEndSeek
  | .invalid => .error .invalidWhence
where
  check (abs : Int) : Except Err Nat :=
    if abs < 0 then .error .negativeSeek
    else if known = true ∧ len < abs then .error .seekPastEnd
    else .ok abs.toNat

def Handle.pos (h : Handle β) : Nat := h.newOffset.getD h.offset

def Setup.known : Bool := decide (0 ≤ c.size)

def Setup.seek (offset : Int) (whence : Whence) (h : Handle β) : Except Err Nat × Handle β :=
  match h.err with
  | some f => (.error (.failed f), h)
  | none =>
    match target c.known (int64 (c.stop - c.start)) h.pos offset whence with
    | .error e => (.error e, h)
    | .ok abs => (.ok abs, { h with tries := 0, newOffset := some abs })

def Setup.readAt (len : Nat) (off : Int) (h : Handle β) : Result β :=
  match c.seek 0 .current h with
  | (.error e, h) => ⟨[], some e, h⟩
  | (.ok cur, h) =>
    match c.seek off .start h with
    | (.error e, h) => ⟨[], some e, h⟩
    | (.ok _, h) =>
      let r := c.read len h
      match c.seek cur .start r.handle with
      | (.error e, h) => ⟨r.bytes, if r.err = none then some e else r.err, h⟩
      | (.ok _, h) => ⟨r.bytes, r.err, h⟩

inductive Call where
  | read (len : Nat)
  | readAt (len : Nat) (off : Int)
  | seek (offset : Int) (whence : Whence)

inductive Output (β : Type) where
  | data (bytes : List β) (err : Option Err)
  | moved (result : Except Err Nat)

def Setup.call (h : Handle β) : Call → Output β × Handle β
  | .read len =>
    let r := c.read len h
    (.data r.bytes r.err, r.handle)
  | .readAt len off =>
    let r := c.readAt len off h
    (.data r.bytes r.err, r.handle)
  | .seek offset whence =>
    let r := c.seek offset whence h
    (.moved r.1, r.2)

def Setup.run (h : Handle β) : List Call → List (Output β) × Handle β
  | [] => ([], h)
  | call :: calls =>
    let first := c.call h call
    let rest := Setup.run first.2 calls
    (first.1 :: rest.1, rest.2)

end Code

/-! ## A reader that never fails -/

section Ideal

variable {β : Type} (range : List β) (known : Bool)

/-- The bytes at a position; less than asked for only at the end of the range, and the end is reported only there. -/
def Delivers (pos len : Nat) (bytes : List β) (err : Option Err) : Prop :=
  bytes = (range.drop pos).take len ∧
    ((err = none ∧ bytes.length = len) ∨ (err = some .eof ∧ range.length ≤ pos + bytes.length))

/-- The answer to a call at a position. -/
def Answers (pos : Nat) : Call → Output β → Prop
  | .read len, .data bytes err => Delivers range pos len bytes err
  | .readAt len off, .data bytes err =>
    match target known range.length pos off .start with
    | .error e => bytes = [] ∧ err = some e
    | .ok abs => Delivers range abs len bytes err
  | .seek offset whence, .moved result => result = target known range.length pos offset whence
  | _, _ => False

/-- The position after a call. -/
def next (pos : Nat) : Call → Nat
  | .read len => pos + ((range.drop pos).take len).length
  | .readAt _ _ => pos
  | .seek offset whence => (target known range.length pos offset whence).toOption.getD pos

/-- Every call is answered from where the calls before it have left the position. -/
def AnswersAll (pos : Nat) : List Call → List (Output β) → Prop
  | [], [] => True
  | call :: calls, out :: outs => Answers range known pos call out ∧ AnswersAll (next range known pos call) calls outs
  | _, _ => False

/-- The position a call reads from or moves to. -/
def touched (pos : Nat) : Call → Nat
  | .read _ => pos
  | .readAt _ off => (target known range.length pos off .start).toOption.getD pos
  | .seek offset whence => (target known range.length pos offset whence).toOption.getD pos

/-- The positions stay within an `int64`, counted from the start of the file. -/
def Bounded (start : Int) (pos : Nat) : List Call → Prop
  | [] => True
  | call :: calls => start + touched range known pos call < 2 ^ 63 ∧ Bounded start (next range known pos call) calls

end Ideal

/-! ## Where a stream goes on -/

section Streams

variable {β : Type} {c : Setup β}

/-- The requested range. -/
def Setup.range (c : Setup β) : List β := c.request.bytes c.content

/-- What keeps a reopened stream in the range: the request is not counted from the end (unless it asks for all bytes
there are), and without a size nothing is cut off at its end. -/
structure Setup.Fits (c : Setup β) : Prop where
  absolute : ∀ o, c.request = .range o → o.start < 0 → 0 ≤ o.last → (c.content.length : Int) ≤ o.last
  nonneg : ∀ offset, c.request = .seek offset → 0 ≤ offset
  uncut : c.size < 0 → 0 ≤ c.limit → (c.content.length : Int) ≤ c.start + c.limit

/-- When the size is known the range ends inside the object. -/
def Setup.Inside (c : Setup β) : Prop :=
  0 ≤ c.size → c.start ≤ c.content.length ∧ (0 ≤ c.limit → c.start + c.limit ≤ c.content.length)

/-- A stream that is opened at an offset continues the range. -/
structure Setup.Lined (c : Setup β) : Prop where
  start_nonneg : 0 ≤ c.start
  stop_lt : c.start + c.range.length < 2 ^ 63
  stream_eq : ∀ offset : Nat, (c.known = true → offset ≤ c.range.length) → c.start + offset < 2 ^ 63 →
    c.stream offset = c.range.drop offset

/-- Only a range from a first to a last byte has a limit. -/
theorem Setup.limited (c : Setup β) (hlimit : 0 ≤ c.limit) :
    0 ≤ c.start ∧ c.start < 2 ^ 63 ∧ c.start + c.limit ≤ 2 ^ 63 ∧ c.range = extract c.content c.start c.limit := by
  have hrange := c.inRange
  unfold Setup.limit at hlimit
  unfold Setup.start Setup.limit Setup.range
  cases hreq : c.request with
  | whole =>
    rw [hreq] at hlimit
    exact absurd hlimit (by decide)
  | seek offset =>
    rw [hreq] at hlimit
    exact absurd hlimit (by show ¬ (0 : Int) ≤ -1; decide)
  | range o =>
    rw [hreq] at hlimit hrange
    obtain ⟨hstart, hlast⟩ := hrange
    simp only [Request.decode, Request.bytes, RangeOption.bytes, RangeOption.decode] at hlimit ⊢
    split_ifs at hlimit ⊢ with h1 h2
    · refine ⟨h1, hstart, ?_, rfl⟩
      rcases Int.lt_or_le (o.last - o.start + 1) (2 ^ 63) with hlt | hge
      · rw [int64_of_lt (by omega) hlt]
        omega
      · rw [int64_of_overflow hge (by omega)] at hlimit
        omega
    · exact absurd hlimit (by simp)
    · exact absurd hlimit (by simp)
    · exact absurd hlimit (by simp)

/-- Without a limit the range goes to the end of the object. -/
theorem Setup.Fits.unlimited (h : c.Fits) (hlimit : c.limit < 0) : 0 ≤ c.start ∧ c.start < 2 ^ 63 ∧
    c.range = c.content.drop c.start.toNat := by
  have hrange := c.inRange
  unfold Setup.limit at hlimit
  unfold Setup.start Setup.range
  cases hreq : c.request with
  | whole => exact ⟨Int.le_refl 0, by decide, rfl⟩
  | seek offset =>
    rw [hreq] at hrange
    exact ⟨h.nonneg offset hreq, hrange, rfl⟩
  | range o =>
    have habsolute := h.absolute o hreq
    rw [hreq] at hlimit hrange
    obtain ⟨hstart, hlast⟩ := hrange
    simp only [Request.decode, Request.bytes, RangeOption.bytes, RangeOption.decode] at hlimit ⊢
    split_ifs at hlimit ⊢ with h1 h2 h2
    · exact ⟨h1, hstart, by rw [extract, if_pos hlimit]⟩
    · exact ⟨h1, hstart, by rw [extract, if_pos (by simp)]⟩
    · -- counted from the end, but all of it
      have hzero : max (int64 ((c.content.length : Int) - o.last)) 0 = 0 := by
        rw [int64_of_lt (by omega) (by omega)]
        omega
      have hzero' : max (int64 (0 - o.last)) 0 = 0 := by
        rw [int64_of_lt (by omega) (by omega)]
        omega
      rw [hzero, hzero', extract, if_pos (by decide)]
      exact ⟨Int.le_refl 0, by decide, rfl⟩
    · exact ⟨Int.le_refl 0, by decide, by rw [extract, if_pos (by decide)]⟩

/-- A range to the end of the object is continued to the end. -/
theorem lined_of_drop (hstart : 0 ≤ c.start) (hlt : c.start < 2 ^ 63) (hrange : c.range = c.content.drop c.start.toNat)
    (hlast : c.last < 0) : c.Lined where
  start_nonneg := hstart
  stop_lt := by
    have := c.length_lt
    rw [hrange, length_drop]
    omega
  stream_eq offset _ hoffset := by
    unfold Setup.stream
    split_ifs with hzero
    · rw [hzero, drop_zero]
      rfl
    · rw [int64_of_lt (by omega) hoffset, show c.start + offset = ((c.start.toNat + offset : Nat) : Int) by omega,
        bytes_of_open hlast, hrange, drop_drop]

theorem lined_of_fits (h : c.Fits) : c.Lined := by
  rcases Int.lt_or_le c.limit 0 with hlimit | hlimit
  · obtain ⟨hstart, hlt, hrange⟩ := h.unlimited hlimit
    refine lined_of_drop hstart hlt hrange ?_
    rw [Setup.last, if_neg (by omega)]
    decide
  obtain ⟨hstart, hlt, hstop, hrange⟩ := c.limited hlimit
  have hlen := c.length_lt
  rw [extract, if_neg (by omega)] at hrange
  rcases Int.lt_or_le c.size 0 with hsize | hsize
  · -- a range that is not cut off goes to the end
    have huncut := h.uncut hsize hlimit
    rw [take_of_length_le (by rw [length_drop]; omega)] at hrange
    refine lined_of_drop hstart hlt hrange ?_
    rw [Setup.last, if_neg (by omega)]
    decide
  have hlast : c.last = c.start + c.limit - 1 := by
    rw [Setup.last, Setup.stop, if_pos ⟨hlimit, hsize⟩, if_pos ⟨hlimit, hsize⟩]
    rcases Int.lt_or_le (c.start + c.limit) (2 ^ 63) with hfits | hover
    · rw [@int64_of_lt (c.start + c.limit) (by omega) hfits, int64_of_lt (by omega) (by omega)]
    · rw [show c.start + c.limit = 2 ^ 63 by omega]
      decide
  have hrangelen : c.range.length ≤ c.limit.toNat ∧ c.start + c.range.length ≤ max c.start c.content.length := by
    rw [hrange, length_take, length_drop]
    omega
  refine ⟨hstart, by omega, fun offset hinside hoffset => ?_⟩
  have hle := hinside (decide_eq_true hsize)
  unfold Setup.stream
  split_ifs with hzero
  · rw [hzero, drop_zero]
    rfl
  · rw [int64_of_lt (by omega) hoffset, hlast, show c.start + offset = ((c.start.toNat + offset : Nat) : Int) by omega,
      show c.start + c.limit - 1 = ((c.start.toNat + c.limit.toNat - 1 : Nat) : Int) by omega,
      bytes_of_span (by omega) (by omega), hrange, drop_take, drop_drop]
    congr 1
    omega

/-- `Seek` works with the length of the range. -/
theorem length_of_inside (h : c.Fits) (hinside : c.Inside) (hknown : c.known = true) :
    int64 (c.stop - c.start) = c.range.length := by
  have hsize : 0 ≤ c.size := of_decide_eq_true hknown
  have hlen := c.length_lt
  have hsizeeq := c.size_eq hsize
  obtain ⟨hle, hcut⟩ := hinside hsize
  rw [Setup.stop]
  split_ifs with hlimit
  · obtain ⟨hstart, -, -, hrange⟩ := c.limited hlimit.1
    rw [@int64_of_lt (c.start + c.limit) (by omega) (by omega), int64_of_lt (by omega) (by omega), hrange, extract,
      if_neg (by omega), length_take, length_drop]
    omega
  · obtain ⟨hstart, -, hrange⟩ := h.unlimited (by omega)
    rw [int64_of_lt (by omega) (by omega), hrange, length_drop]
    omega

end Streams

/-! ## Reading -/

section Reading

variable {β : Type} {c : Setup β}

/-- All opens succeed, and every error of a stream may be tried again. -/
structure Setup.Transient (c : Setup β) : Prop where
  opens : ∀ n, c.opens n = true
  retry : ∀ n count retry, c.answers n = .fail count retry → retry = true

/-- A position of the range, or behind it when the size is not known. -/
structure Setup.Position (c : Setup β) (p : Nat) : Prop where
  inside : c.known = true → p ≤ c.range.length
  bounded : c.start + p < 2 ^ 63

/-- The handle has not failed and its stream is the rest of the range. -/
structure Good (c : Setup β) (h : Handle β) : Prop where
  err : h.err = none
  tries : h.tries ≤ c.maxTries
  rest : h.rest = c.range.drop h.offset
  offset : c.Position h.offset
  newOffset : ∀ p, h.newOffset = some p → c.Position p

/-- The handle has failed after too many tries. -/
def Exhausted (c : Setup β) (h : Handle β) : Prop := h.err ≠ none ∧ c.maxTries < h.tries

theorem openSrc_spec (hl : c.Lined) (ht : c.Transient) (h : Handle β) (hoffset : c.Position h.offset)
    (hnew : ∀ p, h.newOffset = some p → c.Position p) :
    (Good c (c.openSrc h) ∧ (c.openSrc h).offset = h.offset ∧ (c.openSrc h).newOffset = h.newOffset ∧
      (c.openSrc h).tries = h.tries + 1) ∨ Exhausted c (c.openSrc h) := by
  unfold Setup.openSrc
  split_ifs with htries hopen
  · exact .inr ⟨nofun, htries⟩
  · exact .inl ⟨⟨rfl, by dsimp only; omega, hl.stream_eq _ hoffset.inside hoffset.bounded, hoffset, hnew⟩, rfl,
      rfl, rfl⟩
  · exact absurd (ht.opens _) hopen

variable {h : Handle β} {got : List β} {pos want : Nat}

/-- Bytes of the range have been delivered. -/
theorem Good.advance (hl : c.Lined) (hg : Good c h) {n : Nat} (hn : n ≤ h.rest.length) : Good c (h.advance n) := by
  have hstop := hl.stop_lt
  have hbounded := hg.offset.bounded
  have hinside := hg.offset.inside
  rw [hg.rest, length_drop] at hn
  refine ⟨hg.err, hg.tries, ?_, ⟨fun hknown => ?_, ?_⟩, hg.newOffset⟩
  · dsimp only [Handle.advance]
    rw [hg.rest, drop_drop]
  · have := hinside hknown
    dsimp only [Handle.advance]
    omega
  · dsimp only [Handle.advance]
    omega

theorem Delivers.append {range bytes : List β} {err : Option Err}
    (hgot : got = (range.drop pos).take got.length) (hle : got.length ≤ want)
    (h : Delivers range (pos + got.length) (want - got.length) bytes err) :
    Delivers range pos want (got ++ bytes) err := by
  obtain ⟨hbytes, hend⟩ := h
  refine ⟨?_, ?_⟩
  · have hsplit : want = got.length + (want - got.length) := by omega
    rw [hsplit, take_add, ← hgot, drop_drop, ← hbytes]
  · rw [length_append]
    rcases hend with ⟨herr, hlen⟩ | ⟨herr, hlen⟩
    · exact .inl ⟨herr, by omega⟩
    · exact .inr ⟨herr, by omega⟩

/-- What a read of `want` bytes does at a position. -/
def Reads (c : Setup β) (pos want : Nat) (r : Result β) : Prop :=
  (Good c r.handle ∧ r.handle.newOffset = none ∧ r.handle.offset = pos + r.bytes.length ∧
    Delivers c.range pos want r.bytes r.err) ∨ Exhausted c r.handle

theorem Reads.append {r : Result β} (hgot : got = (c.range.drop pos).take got.length)
    (hle : got.length ≤ want) (h : Reads c (pos + got.length) (want - got.length) r) :
    Reads c pos want ⟨got ++ r.bytes, r.err, r.handle⟩ := by
  rcases h with ⟨hgood, hnew, hoffset, hdelivers⟩ | hexhausted
  · refine .inl ⟨hgood, hnew, ?_, hdelivers.append hgot hle⟩
    rw [hoffset, length_append, Nat.add_assoc]
  · exact .inr hexhausted

/-- What a stream gives is the next part of the range. -/
theorem Good.take (hg : Good c h) {n want : Nat} (hn : n ≤ want) : ∃ got, h.rest.take n = got ∧ got.length ≤ want ∧
    got.length = min n h.rest.length ∧ got = (c.range.drop h.offset).take got.length := by
  refine ⟨_, rfl, ?_, length_take, ?_⟩
  · rw [length_take]
    omega
  · rw [← hg.rest, length_take, take_eq_take_iff]
    omega

section

variable (hl : c.Lined) (ht : c.Transient)

include hl ht

theorem readLoop_spec : ∀ {fuel want : Nat} {h : Handle β}, Good c h →
    h.newOffset = none → want + (c.maxTries - h.tries) < fuel → Reads c h.offset want (c.readLoop fuel want h) := by
  intro fuel
  induction fuel with
  | zero => exact fun _ _ hfuel => absurd hfuel (Nat.not_lt_zero _)
  | succ fuel ih =>
    intro want h hg hnew hfuel
    rw [Setup.readLoop]
    by_cases hwant : want = 0
    · rw [if_pos hwant, hwant]
      exact .inl ⟨hg, hnew, rfl, by rw [take_zero], .inl ⟨rfl, rfl⟩⟩
    rw [if_neg hwant]
    cases hanswer : c.answers h.clock with
    | give more eof =>
      dsimp only
      by_cases hempty : h.rest = []
      · -- the end of the stream is the end of the range
        rw [if_pos hempty]
        rw [hg.rest] at hempty
        refine .inl ⟨hg.advance hl (Nat.zero_le _), hnew, rfl, ?_, .inr ⟨rfl, ?_⟩⟩
        · rw [hempty, take_nil]
        · exact drop_eq_nil_iff.mp hempty
      rw [if_neg hempty]
      have hpos := length_pos_iff.mpr hempty
      obtain ⟨got, htake, hle, hlen, hgot⟩ := hg.take (Nat.min_le_right (more + 1) want)
      rw [htake]
      have hg' := hg.advance hl (hlen ▸ Nat.min_le_right _ _)
      by_cases hend : eof = true ∧ (h.advance got.length).rest = []
      · rw [if_pos hend]
        have hall : c.range.length ≤ h.offset + got.length := by
          rw [hg'.rest, drop_eq_nil_iff] at hend
          exact hend.2
        refine .inl ⟨hg', hnew, rfl, ?_, .inr ⟨rfl, hall⟩⟩
        rw [take_of_length_le (by rw [length_drop]; omega)]
        rwa [take_of_length_le (by rw [length_drop]; omega)] at hgot
      · rw [if_neg hend]
        refine Reads.append hgot hle (ih hg' hnew ?_)
        dsimp only [Handle.advance]
        omega
    | fail count retry =>
      obtain rfl := ht.retry _ _ _ hanswer
      dsimp only
      rw [if_pos rfl]
      obtain ⟨got, htake, hle, hlen, hgot⟩ := hg.take (Nat.min_le_right count want)
      rw [htake]
      have hg' := hg.advance hl (hlen ▸ Nat.min_le_right _ _)
      rcases openSrc_spec hl ht { h.advance got.length with err := some .readFailed } hg'.offset hg'.newOffset with
        ⟨hopened, hoffset, hnewOffset, htries⟩ | hexhausted
      · rw [if_pos hopened.err]
        have hrest := @ih (want - got.length) _ hopened (hnewOffset.trans hnew) (by
          have := hopened.tries
          rw [htries] at this ⊢
          dsimp only [Handle.advance] at this ⊢
          omega)
        rw [hoffset] at hrest
        exact Reads.append hgot hle hrest
      · rw [if_neg hexhausted.1]
        exact .inr hexhausted

theorem settle_spec (hg : Good c h) :
    (Good c (c.settle h) ∧ (c.settle h).newOffset = none ∧ (c.settle h).offset = h.pos) ∨ Exhausted c (c.settle h) := by
  unfold Setup.settle Handle.pos
  cases hnew : h.newOffset with
  | none => exact .inl ⟨hg, hnew, rfl⟩
  | some p =>
    dsimp only
    have hp := hg.newOffset p hnew
    by_cases hsame : h.offset = p
    · rw [if_pos hsame]
      exact .inl ⟨{ hg with newOffset := nofun }, rfl, hsame⟩
    rw [if_neg hsame]
    have hopen := openSrc_spec hl ht { h with offset := p } hp hg.newOffset
    rw [hnew] at hopen
    rcases hopen with ⟨hopened, hoffset, -, -⟩ | hexhausted
    · rw [if_pos hopened.err]
      exact .inl ⟨{ hopened with newOffset := nofun }, rfl, hoffset⟩
    · rw [if_neg hexhausted.1]
      exact .inr hexhausted

theorem read_spec (hg : Good c h) (len : Nat) : Reads c h.pos len (c.read len h) := by
  unfold Setup.read
  rw [hg.err]
  dsimp only
  rcases settle_spec hl ht hg with ⟨hgood, hnew, hpos⟩ | hexhausted
  · rw [hgood.err, ← hpos]
    exact readLoop_spec hl ht hgood hnew (by omega)
  · obtain ⟨f, hf⟩ := Option.ne_none_iff_exists'.mp hexhausted.1
    rw [hf]
    exact .inr hexhausted

end

end Reading

/-! ## Calls -/

section Calls

variable {β : Type} {c : Setup β} {h : Handle β} {whence : Whence} {f : Failure} {offset : Int}

theorem call_of_failed (hf : h.err = some f) (call : Call) : (c.call h call).2 = h := by
  have hseek : ∀ offset whence, c.seek offset whence h = (.error (.failed f), h) := by
    intro offset whence
    rw [Setup.seek, hf]
  cases call with
  | read len =>
    rw [Setup.call, Setup.read, hf]
  | readAt len off =>
    rw [Setup.call, Setup.readAt, hseek]
  | seek offset whence =>
    rw [Setup.call, hseek]

theorem target_ok {known : Bool} {len : Int} {pos abs : Nat}
    (h : target known len pos offset whence = .ok abs) : known = true → (abs : Int) ≤ len := by
  have hcheck : ∀ x, target.check known len x = .ok abs → known = true → (abs : Int) ≤ len := by
    intro x hx hknown
    rw [target.check] at hx
    split_ifs at hx with hneg hpast
    cases hx
    have := not_and.mp hpast hknown
    omega
  cases whence with
  | start | current => exact hcheck _ h
  | fromEnd =>
    intro hknown
    rw [target, if_pos hknown] at h
    exact hcheck _ h hknown
  | invalid => cases h

/-- Without a size the length makes no difference. -/
theorem target_unknown (len len' : Int) (pos : Nat) (offset : Int) (whence : Whence) :
    target false len pos offset whence = target false len' pos offset whence := by
  cases whence <;> rfl

/-- A handle with a seek to be done. -/
theorem Good.moved (hg : Good c h) {p : Nat} (hp : c.Position p) : Good c { h with tries := 0, newOffset := some p } :=
  ⟨hg.err, Nat.zero_le _, hg.rest, hg.offset, by rintro q ⟨⟩; exact hp⟩

theorem Good.pos (hg : Good c h) : c.Position h.pos := by
  unfold Handle.pos
  cases hnew : h.newOffset with
  | none => exact hg.offset
  | some p => exact hg.newOffset p hnew

theorem target_position {p q : Nat} (hl : c.Lined) (hp : c.Position p) :
    target c.known c.range.length q p .start = .ok p ∧ target c.known c.range.length p 0 .current = .ok p := by
  have hcheck : target.check c.known c.range.length p = .ok p := by
    rw [target.check, if_neg (by omega), if_neg, Int.toNat_natCast]
    rintro ⟨hknown, hlt⟩
    have := hp.inside hknown
    omega
  have hstart := hl.start_nonneg
  have hbounded := hp.bounded
  refine ⟨hcheck, ?_⟩
  rw [target, Int.add_zero, int64_of_lt (by omega) (by omega)]
  exact hcheck

/-- What a call does to a handle at a position. -/
def Serves (c : Setup β) (pos : Nat) (call : Call) (r : Output β × Handle β) : Prop :=
  (Good c r.2 ∧ r.2.pos = next c.range c.known pos call ∧ Answers c.range c.known pos call r.1) ∨ Exhausted c r.2

/-- The position a call goes to. -/
theorem position_of_target (hl : c.Lined) {pos abs : Nat} (hbounded : c.known = false → c.start + abs < 2 ^ 63)
    (h : target c.known c.range.length pos offset whence = .ok abs) : c.Position abs := by
  have hle := target_ok h
  have hstop := hl.stop_lt
  refine ⟨fun hknown => by have := hle hknown; omega, ?_⟩
  cases hknown : c.known with
  | false => exact hbounded hknown
  | true =>
    have := hle hknown
    omega

theorem call_read (hl : c.Lined) (ht : c.Transient) (hg : Good c h) (len : Nat) :
    Serves c h.pos (.read len) (c.call h (.read len)) := by
  rcases read_spec hl ht hg len with ⟨hgood, hnew, hoffset, hdelivers⟩ | hexhausted
  · refine .inl ⟨hgood, ?_, hdelivers⟩
    dsimp only [Setup.call]
    rw [Handle.pos, hnew, Option.getD_none, hoffset, next, hdelivers.1]
  · exact .inr hexhausted

section

variable (hfits : c.Fits) (hinside : c.Inside)

include hfits hinside

theorem seek_spec (hg : Good c h) (offset : Int) (whence : Whence) : c.seek offset whence h =
      match target c.known c.range.length h.pos offset whence with
      | .error e => (.error e, h)
      | .ok abs => (.ok abs, { h with tries := 0, newOffset := some abs }) := by
  have htarget : target c.known (int64 (c.stop - c.start)) h.pos offset whence =
      target c.known c.range.length h.pos offset whence := by
    cases hknown : c.known with
    | false => exact target_unknown _ _ _ _ _
    | true => rw [length_of_inside hfits hinside hknown]
  rw [Setup.seek, hg.err, ← htarget]

theorem call_seek (hg : Good c h)
    (hbounded : c.known = false → c.start + touched c.range c.known h.pos (.seek offset whence) < 2 ^ 63) :
    Serves c h.pos (.seek offset whence) (c.call h (.seek offset whence)) := by
  have hl := lined_of_fits hfits
  rw [Setup.call, seek_spec hfits hinside hg]
  dsimp only [touched] at hbounded
  cases htarget : target c.known c.range.length h.pos offset whence with
  | error e => exact .inl ⟨hg, by rw [next, htarget]; rfl, htarget.symm⟩
  | ok abs =>
    rw [htarget] at hbounded
    exact .inl ⟨hg.moved (position_of_target hl hbounded htarget), by rw [next, htarget]; rfl, htarget.symm⟩

theorem call_readAt (ht : c.Transient) (hg : Good c h) {len : Nat}
    {off : Int} (hbounded : c.known = false → c.start + touched c.range c.known h.pos (.readAt len off) < 2 ^ 63) :
    Serves c h.pos (.readAt len off) (c.call h (.readAt len off)) := by
  have hl := lined_of_fits hfits
  have hpos := hg.pos
  -- the first seek stays where it is
  have hg₁ := hg.moved hpos
  have hfirst : c.seek 0 .current h = (.ok h.pos, { h with tries := 0, newOffset := some h.pos }) := by
    rw [seek_spec hfits hinside hg, (@target_position _ _ _ 0 hl hpos).2]
  generalize hh₁ : ({ h with tries := 0, newOffset := some h.pos } : Handle β) = h₁ at hg₁ hfirst
  have hpos₁ : h₁.pos = h.pos := by rw [← hh₁]; rfl
  rw [Setup.call, Setup.readAt, hfirst]
  dsimp only [touched] at hbounded ⊢
  rw [seek_spec hfits hinside hg₁, hpos₁]
  cases htarget : target c.known c.range.length h.pos off .start with
  | error e =>
    refine .inl ⟨hg₁, hpos₁, ?_⟩
    rw [Answers, htarget]
    exact ⟨rfl, rfl⟩
  | ok abs =>
    rw [htarget] at hbounded
    have habs : c.Position abs := position_of_target hl hbounded htarget
    have hg₂ := hg₁.moved habs
    dsimp only
    rcases read_spec hl ht hg₂ len with ⟨hgood, -, -, hdelivers⟩ | hexhausted
    · -- the last seek goes back
      rw [seek_spec hfits hinside hgood, (target_position hl hpos).1]
      refine .inl ⟨hgood.moved hpos, rfl, ?_⟩
      rw [Answers, htarget]
      exact hdelivers
    · obtain ⟨f, hf⟩ := Option.ne_none_iff_exists'.mp hexhausted.1
      rw [Setup.seek, hf]
      exact .inr hexhausted

end

theorem call_spec (hfits : c.Fits) (ht : c.Transient) (hg : Good c h) {call : Call}
    (hseek : (¬ ∃ len, call = .read len) → c.Inside)
    (hbounded : c.known = false → c.start + touched c.range c.known h.pos call < 2 ^ 63) :
    Serves c h.pos call (c.call h call) := by
  cases call with
  | read len => exact call_read (lined_of_fits hfits) ht hg len
  | readAt len off => exact call_readAt hfits (hseek (by rintro ⟨len, ⟨⟩⟩)) ht hg hbounded
  | seek offset whence => exact call_seek hfits (hseek (by rintro ⟨len, ⟨⟩⟩)) hg hbounded

theorem run_of_failed (hf : h.err = some f) (calls : List Call) : (c.run h calls).2 = h := by
  induction calls with
  | nil => rfl
  | cons call calls ih =>
    rw [Setup.run]
    rw [call_of_failed hf]
    exact ih

theorem run_spec (hfits : c.Fits) (ht : c.Transient) {calls : List Call} : ∀ {h : Handle β}, Good c h →
    ((∃ call ∈ calls, ¬ ∃ len, call = .read len) → c.Inside) →
    (c.known = false → Bounded c.range c.known c.start h.pos calls) → (c.run h calls).2.tries ≤ c.maxTries →
    AnswersAll c.range c.known h.pos calls (c.run h calls).1 := by
  induction calls with
  | nil => exact fun _ _ _ _ => trivial
  | cons call calls ih =>
    intro h hg hseek hbounded htries
    have hserves :=
      call_spec hfits ht hg (fun hcall => hseek ⟨call, mem_cons_self, hcall⟩) fun hknown => (hbounded hknown).1
    rw [Setup.run] at htries ⊢
    rcases hserves with ⟨hgood, hpos, hanswers⟩ | hexhausted
    · refine ⟨hanswers, ?_⟩
      rw [← hpos]
      refine ih hgood (fun ⟨other, hother, hcall⟩ => hseek ⟨other, mem_cons_of_mem _ hother, hcall⟩) ?_ htries
      intro hknown
      rw [hpos]
      exact (hbounded hknown).2
    · obtain ⟨f, hf⟩ := Option.ne_none_iff_exists'.mp hexhausted.1
      rw [run_of_failed hf] at htries
      exact absurd htries (Nat.not_le.mpr hexhausted.2)

/-- As long as the tries are enough, a handle answers every sequence of calls as a reader of the requested range does
that never fails. -/
theorem reopen_transparent (c : Setup β) (calls : List Call) (hfits : c.Fits) (htransient : c.Transient)
    (hseek : (∃ call ∈ calls, ¬ ∃ len, call = .read len) → c.Inside)
    (hbounded : c.known = false → Bounded c.range c.known c.start 0 calls) (hmax : 1 ≤ c.maxTries) :
    ∃ h, c.newReOpen = some h ∧
      ((c.run h calls).2.tries ≤ c.maxTries → AnswersAll c.range c.known 0 calls (c.run h calls).1) := by
  have hl := lined_of_fits hfits
  have hzero : c.Position 0 := ⟨fun _ => Nat.zero_le _, by have := hl.stop_lt; omega⟩
  have hopen := openSrc_spec hl htransient ⟨0, none, 0, none, [], 0, 0⟩ hzero nofun
  rcases hopen with ⟨hgood, hoffset, hnew, -⟩ | hexhausted
  · refine ⟨_, if_pos hgood.err, ?_⟩
    have hpos : (c.openSrc ⟨0, none, 0, none, [], 0, 0⟩).pos = 0 := by
      rw [Handle.pos, hnew, Option.getD_none, hoffset]
    have hrun := @run_spec _ c hfits htransient calls _ hgood hseek
    rw [hpos] at hrun
    exact hrun hbounded
  · -- the first try is within the limit
    have htries := hexhausted.2
    rw [Setup.openSrc, if_neg (by dsimp only; omega), if_pos (htransient.opens _)] at htries
    dsimp only at htries
    omega

end Calls

/-- The second answer is an error without bytes, the others give a byte each. -/
def failsOnce (n : Nat) : Answer := if n = 1 then .fail 0 true else .give 0 false

/-- Four bytes whose second read fails once. -/
def fourBytes (request : Request) (inRange : request.InRange) (opens : Nat → Bool) : Setup Nat where
  content := [1, 2, 3, 4]
  size := 4
  request := request
  maxTries := 10
  answers := failsOnce
  opens := opens
  size_eq _ := rfl
  length_lt := by decide
  inRange := inRange

theorem reopen_transparent_fourBytes :
    ∃ h, (fourBytes (.range ⟨1, 2⟩) ⟨by decide, by decide⟩ fun _ => true).newReOpen = some h ∧
      AnswersAll [2, 3] true 0 [.read 1, .read 3, .seek (-1) .fromEnd, .readAt 1 0]
        ((fourBytes (.range ⟨1, 2⟩) ⟨by decide, by decide⟩ fun _ => true).run h
          [.read 1, .read 3, .seek (-1) .fromEnd, .readAt 1 0]).1 := by
  have htransient : (fourBytes (.range ⟨1, 2⟩) ⟨by decide, by decide⟩ fun _ => true).Transient := by
    refine ⟨fun _ => rfl, fun n count retry hanswer => ?_⟩
    change failsOnce n = _ at hanswer
    rw [failsOnce] at hanswer
    split_ifs at hanswer
    exact (Answer.fail.inj hanswer).2.symm
  obtain ⟨h, hnew, hanswers⟩ := reopen_transparent (fourBytes (.range ⟨1, 2⟩) ⟨by decide, by decide⟩ fun _ => true)
    [.read 1, .read 3, .seek (-1) .fromEnd, .readAt 1 0]
    ⟨by rintro o ⟨⟩ hneg; exact absurd hneg (by decide), nofun, fun hneg => absurd hneg (by decide)⟩ htransient
    (fun _ _ => ⟨by decide, fun _ => by decide⟩) nofun (by decide)
  cases hnew
  exact ⟨_, rfl, hanswers (by decide)⟩

/-- The last two of four bytes: behind the first of them the object is opened again from its start and not from the
start of the range. When that open fails as well the read is not tried again, although only two tries of ten have been
used. -/
theorem reopen_not_transparent :
    (∃ h, (fourBytes (.range ⟨-1, 2⟩) ⟨by decide, by decide⟩ fun _ => true).newReOpen = some h ∧
      ((fourBytes (.range ⟨-1, 2⟩) ⟨by decide, by decide⟩ fun _ => true).run h [.read 1, .read 1]).1 =
        [.data [3] none, .data [2] none] ∧
      (fourBytes (.range ⟨-1, 2⟩) ⟨by decide, by decide⟩ fun _ => true).range = [3, 4]) ∧
    ∃ h, (fourBytes .whole trivial (· = 0)).newReOpen = some h ∧
      ((fourBytes .whole trivial (· = 0)).run h [.read 1, .read 1]).1 =
        [.data [1] none, .data [] (some (.failed .readFailed))] ∧
      ((fourBytes .whole trivial (· = 0)).run h [.read 1, .read 1]).2.tries = 2 := by
  exact ⟨⟨_, rfl, rfl, rfl⟩, _, rfl, rfl, rfl⟩

end ZClone.Operations.ReOpen
