import Mathlib.Data.List.AList
import Mathlib.Logic.Relation
import ZClone.Lib.Run

/-!
# S3 multipart uploads

The parts of an upload are written into one sink in the order of their numbers. A part that comes early is buffered; the
goroutine that brings the next part pumps it, and those that follow, into the sink, while the others answer their
clients at once. A completion first checks the list of the client against the parts that are recorded, and then, in
another critical section, closes the upload if everything has been streamed.

- `step` lets one request go on to the end of its next critical section, or to its next write to the sink.
- `Streams` relates the sink of an open upload to the record of its parts. Each step of an `UploadPart` keeps it
  (`Streams.stepUpload`).
-/

namespace ZClone.S3.Multipart

open List

abbrev Body := List UInt8

/-- What is fixed for an upload. MD5 is assumed to be injective. -/
structure Config (η : Type) where
  md5 : Body → η
  md5_injective : Function.Injective md5
  bufferLimit : Int
  /-- The parts are written to the final path: the remote has no server-side move or copy. -/
  direct : Bool

/-- `parts` is `partMD5s` and `partSizes`. The sink, the temporary object and the object at the key stand for the
VFS. -/
structure Shared (η : Type) where
  registered : Bool
  parts : AList fun _ : Nat => η × Nat
  buf : AList fun _ : Nat => Body
  nextPart : Nat
  pumping : Bool
  buffered : Int
  closed : Bool
  aborted : Bool
  sink : Body
  /-- `fh.Close` has committed the sink. -/
  committed : Bool
  /-- The file was renamed while it was open, and the rename has not been carried out. -/
  pending : Bool
  temp : Option Body
  final : Option Body

inductive UploadPc where
  | load
  | wait
  | receive
  | writing (part : Body) (written : Nat)
  | returned (ok : Bool)

inductive CompletePc where
  | load
  | validate
  | close
  | sinkClose
  | applyPendingRename
  | rename
  | abort
  | sinkAbort
  | discard
  | returned (ok : Bool)

inductive AbortPc where
  | load
  | abort
  | sinkAbort
  | discard
  | returned

/-- A request. The list of a completion holds part numbers with their ETags; a reaper pass is an abort that takes the
upload off the books first. -/
inductive Thread (η : Type) where
  | upload (number : Nat) (body : Body) (pc : UploadPc)
  | complete (list : List (Nat × η)) (pc : CompletePc)
  | abort (reaper : Bool) (pc : AbortPc)

structure State (η : Type) where
  shared : Shared η
  threads : List (Thread η)

def start (η : Type) : State η where
  shared :=
    { registered := true, parts := ∅, buf := ∅, nextPart := 1, pumping := false, buffered := 0, closed := false,
      aborted := false, sink := [], committed := false, pending := false, temp := none, final := none }
  threads := []

/-- How the outside lets a request go on: as it should, with a failure, or with so many bytes written. -/
inductive Choice where
  | go
  | fail
  | write (count : Nat)

section Code

variable {η : Type} [DecidableEq η] (c : Config η)

section

variable (sh : Shared η)

/-- The head of the loop in `streamPart`: the next part is taken out of the buffer, if it is there. -/
def pump : Shared η × UploadPc :=
  if sh.closed then ({ sh with pumping := false }, .returned false)
  else
    match sh.buf.lookup sh.nextPart with
    | none => ({ sh with pumping := false }, .returned true)
    | some part => ({ sh with buf := sh.buf.erase sh.nextPart }, .writing part 0)

/-- The part is recorded and buffered, and pumped unless another goroutine does it. -/
def record (number : Nat) (body : Body) : Shared η × UploadPc :=
  let sh := { sh with parts := sh.parts.insert number (c.md5 body, body.length), buf := sh.buf.insert number body }
  if sh.pumping then (sh, .returned true) else pump { sh with pumping := true }

/-- `streamPart` up to its first write. -/
def streamPart (number : Nat) (body : Body) : Shared η × UploadPc :=
  if sh.closed then ({ sh with buffered := sh.buffered - body.length }, .returned false)
  else
    match sh.parts.lookup number with
    | none => record c sh number body
    | some (oldMD5, oldSize) =>
      match sh.buf.lookup number with
      | some _ => record c { sh with buffered := sh.buffered - oldSize } number body
      | none =>
        ({ sh with buffered := sh.buffered - body.length },
          .returned (c.md5 body = oldMD5 ∧ body.length = oldSize))

/-- The part has been written. -/
def afterWrite (part : Body) : Shared η × UploadPc :=
  pump { sh with nextPart := sh.nextPart + 1, buffered := sh.buffered - part.length }

def admits (number : Nat) (size : Int) : Bool :=
  c.bufferLimit ≤ 0 || number ≤ sh.nextPart || sh.buffered = 0 || sh.buffered + size ≤ c.bufferLimit

def stepUpload (number : Nat) (body : Body) (choice : Choice) : UploadPc → Option (Shared η × UploadPc)
  | .load => some (sh, if sh.registered then .wait else .returned false)
  | .wait =>
    if sh.closed then some (sh, .returned false)
    else if admits c sh number body.length then some ({ sh with buffered := sh.buffered + body.length }, .receive)
    else none
  | .receive =>
    match choice with
    | .go => some (streamPart c sh number body)
    | .fail => some ({ sh with buffered := sh.buffered - body.length }, .returned false)
    | .write _ => none
  | .writing part written =>
    match choice with
    | .write count =>
      if written + count ≤ part.length then
        some ({ sh with sink := sh.sink ++ (part.drop written).take count }, .writing part (written + count))
      else none
    | .fail => some ({ sh with pumping := false, buffered := sh.buffered - part.length }, .returned false)
    | .go => if written = part.length then some (afterWrite sh part) else none
  | .returned _ => none

def validate (list : List (Nat × η)) : Bool :=
  decide ((list.map Prod.fst).IsChain (· < ·)) && list.length = sh.parts.keys.length &&
    list.all fun p => match sh.parts.lookup p.1 with
      | none => false
      | some (md5, _) => p.2 = md5

/-- The critical section of `abort`, and whether the sink is to be torn down. -/
def abort : Shared η × Bool :=
  if sh.closed then (sh, false) else ({ sh with closed := true, aborted := true, buf := ∅ }, true)

/-- A sink that cannot be abandoned commits what it has. -/
def sinkAbort : Choice → Option (Shared η)
  | .go => some sh
  | .fail => some (if c.direct then { sh with final := some sh.sink } else { sh with temp := some sh.sink })
  | .write _ => none

def discardUpload : Shared η := if c.direct then sh else { sh with temp := none }

/-- `fh.Close` of a completion. -/
def sinkClose : Shared η :=
  if c.direct then { sh with committed := true, final := some sh.sink }
  else { sh with committed := true, temp := some sh.sink }

/-- The temporary object is moved to the key. -/
def renamed (body : Body) : Shared η := { sh with final := some body, temp := none, pending := false }

/-- The temporary object is renamed. While the file is still open the VFS puts the rename off and reports success. -/
def renameTemp : Option (Shared η) :=
  if c.direct then some { sh with registered := false }
  else
    match sh.temp with
    | some body => some { renamed sh body with registered := false }
    | none => if sh.committed then none else some { sh with registered := false, pending := true }

def stepComplete (list : List (Nat × η)) (choice : Choice) : CompletePc → Option (Shared η × CompletePc)
  | .load => some (sh, if sh.registered then .validate else .returned false)
  | .validate =>
    if validate sh list then some (sh, .close) else some ({ sh with registered := false }, .abort)
  | .close =>
    if sh.closed then
      if sh.aborted then some ({ sh with registered := false }, .abort) else some (sh, .rename)
    else if sh.buf.keys.length ≠ 0 ∨ sh.nextPart ≠ sh.parts.keys.length + 1 then
      some ({ sh with registered := false }, .abort)
    else some ({ sh with closed := true }, .sinkClose)
  | .sinkClose =>
    match choice with
    | .go => some (sinkClose c sh, if sh.pending then .applyPendingRename else .rename)
    | .fail => some ({ sh with registered := false }, .abort)
    | .write _ => none
  | .applyPendingRename =>
    match choice with
    | .go => sh.temp.map fun body => (renamed sh body, .rename)
    -- the error is logged, and `fh.Close` returns nil
    | .fail => some (sh, .rename)
    | .write _ => none
  | .rename =>
    match choice with
    | .go => (renameTemp c sh).map (·, .returned true)
    | .fail => if c.direct then none else some (sh, .returned false)
    | .write _ => none
  | .abort => some ((abort sh).1, if (abort sh).2 then .sinkAbort else .discard)
  | .sinkAbort => (sinkAbort c sh choice).map (·, .discard)
  | .discard => some (discardUpload c sh, .returned false)
  | .returned _ => none

def stepAbort (reaper : Bool) (choice : Choice) : AbortPc → Option (Shared η × AbortPc)
  | .load =>
    if sh.registered then some ({ sh with registered := !reaper }, .abort) else some (sh, .returned)
  | .abort => some ((abort sh).1, if (abort sh).2 then .sinkAbort else .discard)
  | .sinkAbort => (sinkAbort c sh choice).map (·, .discard)
  | .discard => some ({ discardUpload c sh with registered := false }, .returned)
  | .returned => none

/-- One request goes on. -/
def stepThread (choice : Choice) : Thread η → Option (Shared η × Thread η)
  | .upload number body pc => (stepUpload c sh number body choice pc).map fun r => (r.1, .upload number body r.2)
  | .complete list pc => (stepComplete c sh list choice pc).map fun r => (r.1, .complete list r.2)
  | .abort reaper pc => (stepAbort c sh reaper choice pc).map fun r => (r.1, .abort reaper r.2)

end

inductive Request (η : Type) where
  | upload (number : Nat) (body : Body)
  | complete (list : List (Nat × η))
  | abort (reaper : Bool)

def Request.thread : Request η → Thread η
  | .upload number body => .upload number body .load
  | .complete list => .complete list .load
  | .abort reaper => .abort reaper .load

inductive Action (η : Type) where
  | request (r : Request η)
  | run (i : Nat) (choice : Choice)

/-- A new request comes, or one goes on. -/
def step (s : State η) : Action η → Option (State η)
  | .request r => some { s with threads := s.threads ++ [r.thread] }
  | .run i choice =>
    match s.threads[i]? with
    | none => none
    | some t => (stepThread c s.shared choice t).map fun r => ⟨r.1, s.threads.set i r.2⟩

def Reachable (s : State η) : Prop := Relation.ReflTransGen (fun s s' => ∃ a, step c s a = some s') (start η) s

theorem step_run {c : Config η} {s s' : State η} {i : Nat} {choice : Choice} (h : step c s (.run i choice) = some s') :
    ∃ t r, s.threads[i]? = some t ∧ stepThread c s.shared choice t = some r ∧ s' = ⟨r.1, s.threads.set i r.2⟩ := by
  rw [step] at h
  cases ht : s.threads[i]? with rw [ht] at h
  | none =>
    cases h
  | some t =>
    obtain ⟨r, hthread, hs'⟩ := Option.map_eq_some_iff.mp h
    exact ⟨t, r, rfl, hthread, hs'.symm⟩

end Code

/-! ## What has been streamed -/

section Streaming

variable {η : Type} {c : Config η} {sh : Shared η} {threads : List (Thread η)} {bodies : List Body}

/-- The part a request is writing, and how far it is. -/
def Thread.current : Thread η → Option (Body × Nat)
  | .upload _ _ (.writing part written) => some (part, written)
  | _ => none

/-- The parts before the next one have been taken out of the buffer and are on record. -/
structure Fed (c : Config η) (sh : Shared η) (bodies : List Body) : Prop where
  next : sh.nextPart = bodies.length + 1
  recorded : ∀ i b, bodies[i]? = some b → sh.parts.lookup (i + 1) = some (c.md5 b, b.length) ∧
    sh.buf.lookup (i + 1) = none
  buffered : ∀ k b, sh.buf.lookup k = some b → sh.parts.lookup k = some (c.md5 b, b.length)

/-- The next part is on record and not in the buffer: it is being written, or writing it has failed. -/
def Busy (sh : Shared η) : Prop := (sh.parts.lookup sh.nextPart).isSome = true ∧ sh.buf.lookup sh.nextPart = none

/-- No request is writing. -/
def Quiet (sh : Shared η) (threads : List (Thread η)) (bodies : List Body) : Prop :=
  sh.pumping = false ∧ (∀ t ∈ threads, Thread.current t = none) ∧ (sh.sink = bodies.flatten ∨ Busy sh)

/-- One request is writing, and no other. -/
def Pumped (c : Config η) (sh : Shared η) (threads : List (Thread η)) (bodies : List Body) : Prop :=
  sh.pumping = true ∧ ∃ (i : Nat) (t : Thread η) (part : Body) (written : Nat),
    threads[i]? = some t ∧ t.current = some (part, written) ∧
    (∀ (j : Nat) (t' : Thread η), threads[j]? = some t' → j ≠ i → t'.current = none) ∧ written ≤ part.length ∧
    sh.sink = bodies.flatten ++ part.take written ∧
    sh.parts.lookup sh.nextPart = some (c.md5 part, part.length) ∧ sh.buf.lookup sh.nextPart = none

def Streams (c : Config η) (sh : Shared η) (threads : List (Thread η)) : Prop :=
  ∃ bodies, Fed c sh bodies ∧ (Quiet sh threads bodies ∨ Pumped c sh threads bodies)

theorem Pumped.busy (h : Pumped c sh threads bodies) : Busy sh := by
  obtain ⟨-, i, t, part, written, -, -, -, -, -, hparts, hbuf⟩ := h
  exact ⟨by rw [hparts]; rfl, hbuf⟩

/-- A part that may be recorded has not been taken out of the buffer. -/
theorem Fed.ne_of_new (h : Fed c sh bodies) {number : Nat}
    (hnew : sh.parts.lookup number = none ∨ (sh.buf.lookup number).isSome = true) :
    (∀ i < bodies.length, i + 1 ≠ number) ∧ (Busy sh → sh.nextPart ≠ number) := by
  constructor
  · rintro i hi rfl
    obtain ⟨hparts, hbuf⟩ := h.recorded i _ (getElem?_eq_getElem hi)
    rcases hnew with hnone | hsome
    · rw [hparts] at hnone
      cases hnone
    · rw [hbuf] at hsome
      cases hsome
  · rintro ⟨hparts, hbuf⟩ rfl
    rcases hnew with hnone | hsome
    · rw [hnone] at hparts
      cases hparts
    · rw [hbuf] at hsome
      cases hsome

theorem Fed.insert (h : Fed c sh bodies) {number : Nat} (body : Body)
    (hnew : sh.parts.lookup number = none ∨ (sh.buf.lookup number).isSome = true) (buffered : Int) (pumping : Bool) :
    Fed c { sh with parts := sh.parts.insert number (c.md5 body, body.length), buf := sh.buf.insert number body,
                    buffered, pumping } bodies where
  next := h.next
  recorded i b hb := by
    obtain ⟨hi, -⟩ := List.getElem?_eq_some_iff.mp hb
    have hne := (h.ne_of_new hnew).1 i hi
    rw [AList.lookup_insert_ne hne, AList.lookup_insert_ne hne]
    exact h.recorded i b hb
  buffered k b hb := by
    by_cases hk : k = number
    · subst hk
      rw [AList.lookup_insert] at hb ⊢
      cases hb
      rfl
    · rw [AList.lookup_insert_ne hk] at hb ⊢
      exact h.buffered k b hb

theorem Busy.insert (h : Busy sh) {number : Nat} (hne : sh.nextPart ≠ number) (v : η × Nat) (body : Body)
    (buffered : Int) (pumping : Bool) :
    Busy { sh with parts := sh.parts.insert number v, buf := sh.buf.insert number body, buffered, pumping } := by
  unfold Busy
  rw [AList.lookup_insert_ne hne, AList.lookup_insert_ne hne]
  exact h

theorem Fed.erase (h : Fed c sh bodies) : Fed c { sh with buf := sh.buf.erase sh.nextPart } bodies where
  next := h.next
  recorded i b hb := by
    obtain ⟨hi, -⟩ := List.getElem?_eq_some_iff.mp hb
    have hnext := h.next
    rw [AList.lookup_erase_ne (by omega)]
    exact h.recorded i b hb
  buffered k b hb := by
    by_cases hk : k = sh.nextPart
    · subst hk
      rw [AList.lookup_erase] at hb
      cases hb
    · rw [AList.lookup_erase_ne hk] at hb
      exact h.buffered k b hb

variable {i j : Nat} {t : Thread η} {p : Thread η → Prop}

section Places

variable {α : Type*} {l : List α} {p : Nat → α → Prop} {a : α}

/-- What holds of everything at its place still holds after one is replaced. -/
theorem forall_getElem?_set (h : ∀ j x, l[j]? = some x → p j x) (ha : p i a) (j : Nat) (x : α)
    (hj : (l.set i a)[j]? = some x) :
    p j x := by
  rw [getElem?_set] at hj
  split_ifs at hj with hij
  · cases hj
    exact hij ▸ ha
  · exact h j x hj

theorem forall_getElem?_concat (h : ∀ j x, l[j]? = some x → p j x) (ha : p l.length a) (j : Nat) (x : α)
    (hj : (l ++ [a])[j]? = some x) : p j x := by
  rcases lt_trichotomy j l.length with hlt | rfl | hgt
  · rw [getElem?_append_left hlt] at hj
    exact h j x hj
  · rw [getElem?_concat_length] at hj
    cases hj
    exact ha
  · rw [getElem?_eq_none (by simp; omega)] at hj
    cases hj

end Places

theorem forall_mem_set (h : ∀ t ∈ threads, p t) (ht : p t) : ∀ u ∈ threads.set i t, p u :=
  fun u hu => (mem_or_eq_of_mem_set hu).elim (h u) fun e => e ▸ ht

theorem forall_mem_concat (h : ∀ t ∈ threads, p t) (ht : p t) : ∀ u ∈ threads ++ [t], p u := by
  intro u hu
  rcases mem_append.mp hu with hu | hu
  · exact h u hu
  · cases mem_singleton.mp hu
    exact ht

/-- No request but this one is writing. -/
def Alone (threads : List (Thread η)) (i : Nat) : Prop := ∀ j t, threads[j]? = some t → j ≠ i → t.current = none

theorem Alone.set (h : Alone threads i) (ht : j ≠ i → t.current = none) : Alone (threads.set j t) i :=
  forall_getElem?_set h ht

theorem Alone.quiet (h : Alone threads i) (ht : t.current = none) : ∀ u ∈ threads.set i t, u.current = none := by
  intro u hu
  obtain ⟨j, hj⟩ := mem_iff_getElem?.mp hu
  by_cases hne : j = i
  · subst hne
    rw [getElem?_set_self (by simpa using (List.getElem?_eq_some_iff.mp hj).1)] at hj
    cases hj
    exact ht
  · exact (h.set fun hne => absurd rfl hne) j u hj hne

/-- The request that writes is not one that does not. -/
theorem ne_of_current {u : Thread η} {writing : Body × Nat} (ht : threads[i]? = some t) (hcurrent : t.current = none)
    (hu : threads[j]? = some u) (hwriting : u.current = some writing) : i ≠ j := by
  rintro rfl
  cases ht.symm.trans hu
  rw [hcurrent] at hwriting
  cases hwriting

/-- A request at the head of the loop. -/
theorem pump_streams (hfed : Fed c sh bodies) (hopen : sh.closed = false) (hpumping : sh.pumping = true)
    (hsink : sh.sink = bodies.flatten ∨ Busy sh) (ht : threads[i]? = some t) (halone : Alone threads i) (number : Nat)
    (body : Body) :
    Streams c (pump sh).1 (threads.set i (.upload number body (pump sh).2)) := by
  obtain ⟨hi, -⟩ := List.getElem?_eq_some_iff.mp ht
  rw [pump, if_neg (by simp [hopen])]
  cases hlookup : sh.buf.lookup sh.nextPart with
  | none =>
    exact ⟨bodies, { hfed with }, .inl ⟨rfl, halone.quiet rfl, hsink⟩⟩
  | some part =>
    have hclean : sh.sink = bodies.flatten := by
      refine hsink.resolve_right fun hbusy => ?_
      rw [hbusy.2] at hlookup
      cases hlookup
    refine ⟨bodies, hfed.erase,
      .inr ⟨hpumping, i, _, part, 0, getElem?_set_self hi, rfl, ?_, Nat.zero_le _, ?_, ?_, ?_⟩⟩
    · exact halone.set fun hne => absurd rfl hne
    · simpa using hclean
    · exact hfed.buffered _ _ hlookup
    · exact AList.lookup_erase _ _

/-- A part is recorded. -/
theorem Streams.record (h : Streams c sh threads) (hopen : sh.closed = false) (ht : threads[i]? = some t)
    (hcurrent : t.current = none) {number : Nat} (body : Body) (buffered : Int)
    (hnew : sh.parts.lookup number = none ∨ (sh.buf.lookup number).isSome = true) :
    Streams c (record c { sh with buffered } number body).1
      (threads.set i (.upload number body (record c { sh with buffered } number body).2)) := by
  obtain ⟨bodies, hfed, hquiet | hpumped⟩ := h
  · obtain ⟨hpumping, hnone, hsink⟩ := hquiet
    rw [Multipart.record]
    rw [hpumping]
    refine pump_streams (hfed.insert body hnew buffered true) hopen rfl ?_ ht ?_ number body
    · exact hsink.imp_right fun hbusy => hbusy.insert ((hfed.ne_of_new hnew).2 hbusy) _ body buffered true
    · exact fun j t' hj _ => hnone t' (mem_of_getElem? hj)
  · have hne := (hfed.ne_of_new hnew).2 hpumped.busy
    obtain ⟨hpumping, j, t', part, written, ht', hwriting, halone, hle, hsink, hparts, hbuf⟩ := hpumped
    rw [Multipart.record]
    dsimp only
    rw [hpumping]
    refine ⟨bodies, hfed.insert body hnew buffered true,
      .inr ⟨rfl, j, t', part, written, ?_, hwriting, ?_, hle, hsink, ?_, ?_⟩⟩
    · rw [getElem?_set_ne (ne_of_current ht hcurrent ht' hwriting), ht']
    · exact Alone.set halone fun _ => rfl
    · exact (AList.lookup_insert_ne hne).trans hparts
    · exact (AList.lookup_insert_ne hne).trans hbuf

theorem Streams.idle (h : Streams c sh threads) (ht : threads[i]? = some t) (hcurrent : t.current = none)
    {t' : Thread η} (hcurrent' : t'.current = none) (registered : Bool) (buffered : Int) (temp : Option Body) :
    Streams c { sh with registered, buffered, temp } (threads.set i t') := by
  obtain ⟨bodies, hfed, hquiet | hpumped⟩ := h
  · obtain ⟨hpumping, hnone, hsink⟩ := hquiet
    exact ⟨bodies, { hfed with }, .inl ⟨hpumping, forall_mem_set hnone hcurrent', hsink⟩⟩
  · obtain ⟨hpumping, j, u, part, written, hu, hwriting, halone, hrest⟩ := hpumped
    refine ⟨bodies, { hfed with },
      .inr ⟨hpumping, j, u, part, written, ?_, hwriting, Alone.set halone fun _ => hcurrent', hrest⟩⟩
    rw [getElem?_set_ne (ne_of_current ht hcurrent hu hwriting), hu]

theorem Streams.append (h : Streams c sh threads) (hcurrent : t.current = none) : Streams c sh (threads ++ [t]) := by
  obtain ⟨bodies, hfed, hquiet | hpumped⟩ := h
  · obtain ⟨hpumping, hnone, hsink⟩ := hquiet
    exact ⟨bodies, hfed, .inl ⟨hpumping, forall_mem_concat hnone hcurrent, hsink⟩⟩
  · obtain ⟨hpumping, j, u, part, written, hu, hwriting, halone, hrest⟩ := hpumped
    refine ⟨bodies, hfed,
      .inr ⟨hpumping, j, u, part, written, ?_, hwriting, forall_getElem?_concat halone fun _ => hcurrent, hrest⟩⟩
    rw [getElem?_append_left (List.getElem?_eq_some_iff.mp hu).1, hu]

/-- What is known of the request that writes. -/
theorem Streams.writer (h : Streams c sh threads) (ht : threads[i]? = some t) {part : Body} {written : Nat}
    (hcurrent : t.current = some (part, written)) : ∃ bodies, Fed c sh bodies ∧ sh.pumping = true ∧
      Alone threads i ∧ sh.sink = bodies.flatten ++ part.take written ∧
      sh.parts.lookup sh.nextPart = some (c.md5 part, part.length) ∧ sh.buf.lookup sh.nextPart = none := by
  obtain ⟨bodies, hfed, hquiet | hpumped⟩ := h
  · rw [hquiet.2.1 t (mem_of_getElem? ht)] at hcurrent
    cases hcurrent
  · obtain ⟨hpumping, j, u, part', written', hu, hwriting, halone, -, hsink, hparts, hbuf⟩ := hpumped
    have hij : i = j := by
      by_contra hne
      rw [halone i t ht hne] at hcurrent
      cases hcurrent
    subst hij
    cases ht.symm.trans hu
    cases hcurrent.symm.trans hwriting
    exact ⟨bodies, hfed, hpumping, halone, hsink, hparts, hbuf⟩

variable {number : Nat} {body part : Body} {written : Nat}

section

variable (h : Streams c sh threads) (ht : threads[i]? = some (.upload number body (.writing part written)))

include h ht

theorem Streams.write {count : Nat} (hcount : written + count ≤ part.length) :
    Streams c { sh with sink := sh.sink ++ (part.drop written).take count }
      (threads.set i (.upload number body (.writing part (written + count)))) := by
  obtain ⟨bodies, hfed, hpumping, halone, hsink, hparts, hbuf⟩ := h.writer ht rfl
  obtain ⟨hi, -⟩ := List.getElem?_eq_some_iff.mp ht
  refine ⟨bodies, { hfed with },
    .inr ⟨hpumping, i, _, part, _, getElem?_set_self hi, rfl, ?_, hcount, ?_, hparts, hbuf⟩⟩
  · exact halone.set fun hne => absurd rfl hne
  · dsimp only
    rw [hsink, append_assoc, take_add]

/-- A failed write leaves the next part on record, out of the buffer, for good. -/
theorem Streams.fail : Streams c { sh with pumping := false, buffered := sh.buffered - part.length }
      (threads.set i (.upload number body (.returned false))) := by
  obtain ⟨bodies, hfed, -, halone, -, hparts, hbuf⟩ := h.writer ht rfl
  exact ⟨bodies, { hfed with }, .inl ⟨rfl, halone.quiet rfl, .inr ⟨by rw [hparts]; rfl, hbuf⟩⟩⟩

end

theorem Streams.afterWrite (h : Streams c sh threads) (hopen : sh.closed = false)
    (ht : threads[i]? = some (.upload number body (.writing part part.length))) :
    Streams c (afterWrite sh part).1 (threads.set i (.upload number body (afterWrite sh part).2)) := by
  obtain ⟨bodies, hfed, hpumping, halone, hsink, hparts, hbuf⟩ := h.writer ht rfl
  have hnext := hfed.next
  have hfed' : Fed c { sh with nextPart := sh.nextPart + 1, buffered := sh.buffered - part.length }
      (bodies ++ [part]) := by
    rw [hnext] at hparts hbuf
    exact ⟨by simp [hnext], forall_getElem?_concat hfed.recorded ⟨hparts, hbuf⟩, hfed.buffered⟩
  refine pump_streams hfed' hopen hpumping (.inl ?_) ht halone number body
  simpa using hsink

theorem Streams.streamPart [DecidableEq η] (h : Streams c sh threads) (hopen : sh.closed = false)
    (ht : threads[i]? = some t) (hcurrent : t.current = none) :
    Streams c (streamPart c sh number body).1
      (threads.set i (.upload number body (streamPart c sh number body).2)) := by
  rw [Multipart.streamPart, if_neg (by simp [hopen])]
  cases hparts : sh.parts.lookup number with
  | none => exact h.record hopen ht hcurrent body sh.buffered (.inl hparts)
  | some old =>
    cases hbuf : sh.buf.lookup number with
    | some _ => exact h.record hopen ht hcurrent body _ (.inr (by rw [hbuf]; rfl))
    | none => exact h.idle ht hcurrent rfl sh.registered _ sh.temp

/-- One step of an `UploadPart` of an open upload. -/
theorem Streams.stepUpload [DecidableEq η] (h : Streams c sh threads) (hopen : sh.closed = false) {pc : UploadPc}
    (ht : threads[i]? = some (.upload number body pc)) {choice : Choice} {r : Shared η × UploadPc}
    (hstep : stepUpload c sh number body choice pc = some r) :
    Streams c r.1 (threads.set i (.upload number body r.2)) := by
  cases pc with
  | load =>
    cases hstep
    refine h.idle ht rfl ?_ sh.registered sh.buffered sh.temp
    cases sh.registered <;> rfl
  | wait =>
    rw [Multipart.stepUpload, if_neg (by simp [hopen])] at hstep
    split_ifs at hstep
    cases hstep
    exact h.idle ht rfl rfl sh.registered _ sh.temp
  | receive =>
    cases choice with
    | go =>
      cases hstep
      exact h.streamPart hopen ht rfl
    | fail =>
      cases hstep
      exact h.idle ht rfl rfl sh.registered _ sh.temp
    | write count => cases hstep
  | writing part written =>
    cases choice with
    | write count =>
      rw [Multipart.stepUpload] at hstep
      split_ifs at hstep with hcount
      cases hstep
      exact h.write ht hcount
    | fail =>
      cases hstep
      exact h.fail ht
    | go =>
      rw [Multipart.stepUpload] at hstep
      split_ifs at hstep with hwritten
      cases hstep
      subst hwritten
      exact h.afterWrite hopen ht
  | returned ok => cases hstep

end Streaming

end ZClone.S3.Multipart
