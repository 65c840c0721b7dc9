import Mathlib.Logic.Relation
import Mathlib.Tactic.SplitIfs
import ZClone.Lib.Run

/-!
# Generic multipart upload

`UploadMultipart` reads the input chunk by chunk and hands each chunk to a goroutine. It stops reading at the end of the
input, at a read error, or when it sees that the context of the group has been cancelled.

- `step` is one step of the reading loop, of a goroutine or of the caller that cancels the context.
- `Inv` holds in every state that can be reached.
- `uploadMultipart_safe` says what a returned upload has written, and that no chunk is being written when the upload is
  closed or aborted; `truncated_and_aborted_early` shows what a cancelled context and a read error do.
-/

namespace ZClone.Multipart

open List

/-- One upload. `data` is the input up to its end, a negative `size` is an unknown one. -/
structure Upload where
  data : List UInt8
  size : Int
  chunkSize : Nat
  chunk_pos : 0 < chunkSize
  infoConcurrency : Int
  leavePartsOnError : Bool

/-- How far a goroutine is: in `WriteChunk`, back from it, without its token, at its end. -/
inductive Stage where
  | writing
  | written (ok : Bool)
  | freed (ok : Bool)
  | ended (ok : Bool)
  deriving DecidableEq

/-- A chunk with its goroutine. -/
structure Part where
  bytes : List UInt8
  stage : Stage
  deriving DecidableEq

/-- `WriteChunk` has returned without an error. -/
def Stage.succeeded : Stage → Bool
  | .writing => false
  | .written ok => ok
  | .freed ok => ok
  | .ended ok => ok

def Stage.holdsToken : Stage → Bool
  | .writing => true
  | .written _ => true
  | _ => false

/-- Where the function is. -/
inductive Pc where
  | get
  | check
  | read
  | wait
  | close
  | failed (reading : Bool)
  | returned (ok : Bool)
  deriving DecidableEq

/-- The calls of the chunk writer that have had an effect. -/
inductive Event where
  | wrote (chunk : Nat) (bytes : List UInt8)
  | closed
  | aborted
  deriving DecidableEq

structure State where
  pc : Pc
  off : Nat
  parts : List Part
  tokens : Nat
  cancelled : Bool
  log : List Event
  deriving DecidableEq

/-- The context of the group is cancelled with that of the caller and when a goroutine has failed. -/
def State.gCtxErr (s : State) : Bool := s.cancelled || s.parts.any (·.stage = .ended false)

inductive Action where
  | get
  | check
  | read
  | readError
  | writeChunk (i : Nat) (ok : Bool)
  | free (i : Nat)
  | finish (i : Nat)
  | wait
  | close (ok : Bool)
  | abort
  | cancel

def State.setStage (s : State) (i : Nat) (p : Part) (stage : Stage) : State :=
  { s with parts := s.parts.set i { p with stage } }

section

variable (u : Upload)

def Upload.concurrency : Nat := (max u.infoConcurrency 1).toNat

def Upload.start : State := ⟨.get, 0, [], u.concurrency, false, []⟩

/-- `io.CopyN` and what follows in the loop. -/
def Upload.readChunk (s : State) : State :=
  let chunk := (u.data.drop s.off).take u.chunkSize
  if chunk = [] ∧ s.parts ≠ [] then { s with pc := .wait, tokens := s.tokens + 1 }
  else
    { s with
      pc := if chunk.length < u.chunkSize then .wait else .get
      off := s.off + chunk.length
      parts := s.parts ++ [⟨chunk, .writing⟩] }

/-- One step, `none` when it is not its turn. -/
def Upload.step (s : State) : Action → Option State
  | .get => if s.pc = .get ∧ 0 < s.tokens then some { s with pc := .check, tokens := s.tokens - 1 } else none
  | .check =>
    if s.pc = .check then
      if s.gCtxErr then some { s with pc := .wait, tokens := s.tokens + 1 } else some { s with pc := .read }
    else none
  | .read => if s.pc = .read then some (u.readChunk s) else none
  | .readError => if s.pc = .read then some { s with pc := .failed true, tokens := s.tokens + 1 } else none
  | .writeChunk i ok =>
    match s.parts[i]? with
    | some p =>
      if p.stage = .writing then
        some { s.setStage i p (.written ok) with log := if ok then s.log ++ [.wrote i p.bytes] else s.log }
      else none
    | none => none
  | .free i =>
    match s.parts[i]? with
    | some p =>
      match p.stage with
      | .written ok => some { s.setStage i p (.freed ok) with tokens := s.tokens + 1 }
      | _ => none
    | none => none
  | .finish i =>
    match s.parts[i]? with
    | some p =>
      match p.stage with
      | .freed ok => some (s.setStage i p (.ended ok))
      | _ => none
    | none => none
  | .wait =>
    if s.pc = .wait ∧ s.parts.all (fun p => p.stage = .ended true ∨ p.stage = .ended false) then
      if s.parts.any (·.stage = .ended false) then some { s with pc := .failed false }
      else if 0 ≤ u.size ∧ (s.off : Int) ≠ u.size then some { s with pc := .failed false }
      else some { s with pc := .close }
    else none
  | .close ok =>
    if s.pc = .close then
      some { s with pc := if ok then .returned true else .failed false, log := s.log ++ [.closed] }
    else none
  | .abort =>
    match s.pc with
    | .failed _ =>
      some { s with pc := .returned false, log := if u.leavePartsOnError then s.log else s.log ++ [.aborted] }
    | _ => none
  | .cancel => some { s with cancelled := true }

def Upload.Next (s s' : State) : Prop := ∃ a, u.step s a = some s'

def Upload.Reachable (s : State) : Prop := Relation.ReflTransGen u.Next u.start s

/-- A whole run. -/
def Upload.run (actions : List Action) : Option State := actions.foldlM u.step u.start

end

/-! ## Changing a stage -/

section Stages

variable {s : State} {i : Nat} {p : Part}

section

variable (hp : s.parts[i]? = some p) (stage : Stage)

include hp stage

theorem getElem?_setStage (j : Nat) :
    (s.setStage i p stage).parts[j]? = if i = j then some { p with stage } else s.parts[j]? := by
  obtain ⟨hi, -⟩ := List.getElem?_eq_some_iff.mp hp
  rw [State.setStage, getElem?_set]
  split_ifs <;> rfl

theorem bytes_setStage : (s.setStage i p stage).parts.map (·.bytes) = s.parts.map (·.bytes) := by
  obtain ⟨hi, rfl⟩ := List.getElem?_eq_some_iff.mp hp
  rw [State.setStage, map_set]
  have hself := set_getElem_self (show i < (s.parts.map (·.bytes)).length by rwa [length_map])
  rwa [getElem_map] at hself

theorem countP_setStage :
    (s.setStage i p stage).parts.countP (·.stage.holdsToken) + (if p.stage.holdsToken then 1 else 0) =
      s.parts.countP (·.stage.holdsToken) + if stage.holdsToken then 1 else 0 := by
  obtain ⟨hi, rfl⟩ := List.getElem?_eq_some_iff.mp hp
  have hcount := countP_set (p := fun q : Part => q.stage.holdsToken) (a := { s.parts[i] with stage }) hi
  have hpos : s.parts[i].stage.holdsToken = true → 0 < s.parts.countP (·.stage.holdsToken) := by
    intro hholds
    exact countP_pos_iff.mpr ⟨s.parts[i], getElem_mem hi, hholds⟩
  rw [State.setStage]
  rw [hcount]
  split_ifs with hold hnew hnew
  · have := hpos hold
    omega
  · have := hpos hold
    omega
  · omega
  · omega

end

/-- A part that is not changed is still there. -/
theorem mem_setStage_of_ne (hp : s.parts[i]? = some p) {stage : Stage} {q : Part} (hq : q ∈ s.parts)
    (hne : q.stage ≠ p.stage) : q ∈ (s.setStage i p stage).parts := by
  obtain ⟨j, hj⟩ := mem_iff_getElem?.mp hq
  apply mem_iff_getElem?.mpr
  refine ⟨j, ?_⟩
  rw [getElem?_setStage hp, if_neg, hj]
  rintro rfl
  rw [hp] at hj
  exact hne (congrArg Part.stage (Option.some.inj hj).symm)

end Stages

/-! ## The invariant -/

/-- The loop has not been left. -/
def Pc.looping : Pc → Bool
  | .get => true
  | .check => true
  | .read => true
  | _ => false

/-- The chunks are what has been read, all but the last one full. -/
structure Chunks (u : Upload) (s : State) : Prop where
  off_le : s.off ≤ u.data.length
  bytes : (s.parts.map (·.bytes)).flatten = u.data.take s.off
  init : ∀ b ∈ (s.parts.map (·.bytes)).dropLast, b.length = u.chunkSize
  full : s.pc.looping = true → ∀ b ∈ s.parts.map (·.bytes), b.length = u.chunkSize

/-- The chunks that have been written, each once. -/
def Writes (s : State) (writes : List Event) : Prop :=
  writes.Nodup ∧ ∀ e, e ∈ writes ↔ ∃ i p, s.parts[i]? = some p ∧ p.stage.succeeded = true ∧ e = .wrote i p.bytes

/-- What is in the log until the upload fails. -/
def Logged (s : State) : Prop :=
  match s.pc with
  | .failed _ => True
  | .returned false => True
  | .returned true => ∃ writes, s.log = writes ++ [.closed] ∧ Writes s writes
  | _ => Writes s s.log

/-- How the loop was left, and what is known behind it. -/
def Left (u : Upload) (s : State) : Prop :=
  match s.pc with
  | .get | .check | .read | .returned false => True
  | .failed true => u.concurrency = 1 → ∀ p ∈ s.parts, p.stage ≠ .writing
  | .wait => s.off = u.data.length ∨ s.cancelled = true ∨ ∃ p ∈ s.parts, p.stage = .ended false
  | .failed false => ∀ p ∈ s.parts, ∃ ok, p.stage = .ended ok
  | .close | .returned true =>
    (∀ p ∈ s.parts, p.stage = .ended true) ∧ (s.off = u.data.length ∨ s.cancelled = true) ∧
      (0 ≤ u.size → (s.off : Int) = u.size)

/-- The token of the loop. -/
def Pc.held : Pc → Nat
  | .check => 1
  | .read => 1
  | _ => 0

/-- Every token is free, with the loop, or with a goroutine. -/
def Counted (u : Upload) (s : State) : Prop :=
  s.tokens + s.pc.held + s.parts.countP (·.stage.holdsToken) = u.concurrency

structure Inv (u : Upload) (s : State) : Prop where
  chunks : Chunks u s
  logged : Logged s
  left : Left u s
  counted : Counted u s

section Keeps

variable {u : Upload} {s s' : State} {writes : List Event} {p : Part} {i tokens : Nat} {pc : Pc}

theorem Chunks.congr (h : Chunks u s) (hoff : s'.off = s.off) (hbytes : s'.parts.map (·.bytes) = s.parts.map (·.bytes))
    (hpc : s'.pc.looping = true → s.pc.looping = true) : Chunks u s' where
  off_le := hoff ▸ h.off_le
  bytes := by rw [hbytes, hoff, h.bytes]
  init := hbytes ▸ h.init
  full hlooping := hbytes ▸ h.full (hpc hlooping)

/-- A goroutine that goes on without touching the log keeps what has been written. -/
theorem Writes.setStage (h : Writes s writes) (hp : s.parts[i]? = some p)
    {stage : Stage} (hstage : stage.succeeded = p.stage.succeeded) : Writes (s.setStage i p stage) writes := by
  refine ⟨h.1, fun e => (h.2 e).trans ?_⟩
  constructor
  · rintro ⟨j, q, hq, hsucceeded, rfl⟩
    by_cases hij : i = j
    · subst hij
      cases hp.symm.trans hq
      exact ⟨i, { p with stage }, by rw [getElem?_setStage hp, if_pos rfl], hstage.trans hsucceeded, rfl⟩
    · exact ⟨j, q, by rw [getElem?_setStage hp, if_neg hij, hq], hsucceeded, rfl⟩
  · rintro ⟨j, q, hq, hsucceeded, rfl⟩
    rw [getElem?_setStage hp] at hq
    split_ifs at hq with hij
    · cases hq
      subst hij
      exact ⟨i, p, hp, hstage ▸ hsucceeded, rfl⟩
    · exact ⟨j, q, hq, hsucceeded, rfl⟩

/-- A chunk that has been written is new in the log. -/
theorem Writes.wrote (h : Writes s writes) (hp : s.parts[i]? = some p)
    (hwriting : p.stage = .writing) : Writes (s.setStage i p (.written true)) (writes ++ [.wrote i p.bytes]) := by
  have hnew : Event.wrote i p.bytes ∉ writes := by
    intro hmem
    obtain ⟨j, q, hq, hsucceeded, heq⟩ := (h.2 _).mp hmem
    cases (Event.wrote.inj heq).1
    cases hp.symm.trans hq
    rw [hwriting] at hsucceeded
    cases hsucceeded
  refine ⟨nodup_append.mpr ⟨h.1, by simp, ?_⟩, fun e => ?_⟩
  · rintro a ha b hb rfl
    exact hnew (mem_singleton.mp hb ▸ ha)
  · rw [mem_append, mem_singleton, h.2]
    constructor
    · rintro (⟨j, q, hq, hsucceeded, rfl⟩ | rfl)
      · refine ⟨j, q, ?_, hsucceeded, rfl⟩
        rw [getElem?_setStage hp, if_neg, hq]
        rintro rfl
        cases hp.symm.trans hq
        rw [hwriting] at hsucceeded
        cases hsucceeded
      · exact ⟨i, { p with stage := .written true }, by rw [getElem?_setStage hp, if_pos rfl], rfl, rfl⟩
    · rintro ⟨j, q, hq, hsucceeded, rfl⟩
      rw [getElem?_setStage hp] at hq
      split_ifs at hq with hij
      · cases hq
        exact .inr (hij ▸ rfl)
      · exact .inl ⟨j, q, hq, hsucceeded, rfl⟩

/-- While a goroutine has not ended the function is in the loop, waits, or has failed to read. -/
theorem Left.setStage (h : Left u s) (hp : s.parts[i]? = some p) (hlive : ∀ ok, p.stage ≠ .ended ok)
    {stage : Stage} (hstage : stage ≠ .writing) : Left u (s.setStage i p stage) := by
  have hmem := mem_of_getElem? hp
  unfold Left at h ⊢
  rw [show (s.setStage i p stage).pc = s.pc from rfl, show (s.setStage i p stage).off = s.off from rfl,
    show (s.setStage i p stage).cancelled = s.cancelled from rfl]
  split at h
  · exact h
  · exact h
  · exact h
  · exact h
  · intro hone q hq
    rcases mem_or_eq_of_mem_set hq with hq | rfl
    · exact h hone q hq
    · exact hstage
  · refine h.imp_right (Or.imp_right ?_)
    rintro ⟨q, hq, hfailed⟩
    exact ⟨q, mem_setStage_of_ne hp hq fun heq => hlive false (heq ▸ hfailed), hfailed⟩
  · obtain ⟨ok, hended⟩ := h p hmem
    exact absurd hended (hlive ok)
  · exact absurd (h.1 p hmem) (hlive true)
  · exact absurd (h.1 p hmem) (hlive true)

/-- A goroutine goes on. -/
theorem Inv.setStage (h : Inv u s) (hp : s.parts[i]? = some p) (hlive : ∀ ok, p.stage ≠ .ended ok)
    {stage : Stage} (hstage : stage ≠ .writing) {log : List Event}
    (hlogged : ∀ writes, Writes s writes → log = s.log ∧ Writes (s.setStage i p stage) writes ∨
      log = s.log ++ [.wrote i p.bytes] ∧ Writes (s.setStage i p stage) (writes ++ [.wrote i p.bytes]))
    (htokens : tokens + (if stage.holdsToken then 1 else 0) = s.tokens + if p.stage.holdsToken then 1 else 0) :
    Inv u { s.setStage i p stage with log, tokens } where
  chunks := h.chunks.congr rfl (bytes_setStage hp stage) id
  logged := by
    have hold := h.logged
    have hleft := h.left
    unfold Logged at hold ⊢
    unfold Left at hleft
    dsimp only [State.setStage]
    cases hpc : s.pc with
    | failed reading => trivial
    | returned ok =>
      cases ok with
      | false => trivial
      | true =>
        rw [hpc] at hleft
        exact absurd (hleft.1 p (mem_of_getElem? hp)) (hlive true)
    | _ =>
      rw [hpc] at hold
      rcases hlogged s.log hold with ⟨rfl, hwrites⟩ | ⟨rfl, hwrites⟩ <;> exact hwrites
  left := h.left.setStage hp hlive hstage
  counted := by
    have hold := h.counted
    have hcount := countP_setStage hp stage
    unfold Counted at hold ⊢
    dsimp only [State.setStage] at hcount ⊢
    omega

/-- A chunk that is being written is not in the log. -/
theorem Writes.launch (h : Writes s writes) (chunk : List UInt8) (pc : Pc) (off : Nat) :
    Writes { s with pc, off, parts := s.parts ++ [⟨chunk, .writing⟩] } writes := by
  refine ⟨h.1, fun e => (h.2 e).trans ?_⟩
  constructor
  · rintro ⟨i, p, hp, hsucceeded, rfl⟩
    obtain ⟨hi, -⟩ := List.getElem?_eq_some_iff.mp hp
    exact ⟨i, p, by rw [getElem?_append_left hi, hp], hsucceeded, rfl⟩
  · rintro ⟨i, p, hp, hsucceeded, rfl⟩
    rcases Nat.lt_or_ge i s.parts.length with hi | hi
    · exact ⟨i, p, by rwa [getElem?_append_left hi] at hp, hsucceeded, rfl⟩
    · rw [getElem?_append_right hi, getElem?_singleton] at hp
      split_ifs at hp
      cases hp
      cases hsucceeded

theorem Chunks.launch (h : Chunks u s) (hpc : s.pc.looping = true) {chunk : List UInt8}
    (hchunk : chunk = (u.data.drop s.off).take u.chunkSize) (hfull : pc.looping = true → chunk.length = u.chunkSize) :
    Chunks u { s with pc, off := s.off + chunk.length, parts := s.parts ++ [⟨chunk, .writing⟩] } := by
  have hoff := h.off_le
  have hlen : chunk.length = min u.chunkSize (u.data.length - s.off) := by
    rw [hchunk, length_take, length_drop]
  have hold := h.full hpc
  constructor <;> dsimp only
  · omega
  · have hself : (u.data.drop s.off).take chunk.length = chunk := by
      rw [hlen, hchunk, take_eq_take_iff, length_drop]
      omega
    rw [map_append, flatten_append, h.bytes, take_add, hself]
    simp
  · rw [map_append, map_singleton, dropLast_concat]
    exact hold
  · intro hlooping b hb
    rw [map_append, mem_append] at hb
    rcases hb with hb | hb
    · exact hold b hb
    · rw [mem_singleton.mp hb]
      exact hfull hlooping

/-- The loop, or what follows it, goes on and takes or gives back its token. -/
theorem Inv.move (h : Inv u s) (hpc : pc.looping = true → s.pc.looping = true)
    (hlogged : Logged { s with pc, tokens }) (hleft : Left u { s with pc, tokens })
    (htokens : tokens + pc.held = s.tokens + s.pc.held) :
    Inv u { s with pc, tokens } where
  chunks := h.chunks.congr rfl rfl hpc
  logged := hlogged
  left := hleft
  counted := by
    have hcounted := h.counted
    unfold Counted at hcounted ⊢
    dsimp only
    omega

theorem Inv.readChunk (h : Inv u s) (hpc : s.pc = .read) : Inv u (u.readChunk s) := by
  have hlogged := h.logged
  have hcounted := h.counted
  unfold Logged at hlogged
  unfold Counted at hcounted
  rw [hpc] at hlogged hcounted
  have hlen : ((u.data.drop s.off).take u.chunkSize).length = min u.chunkSize (u.data.length - s.off) := by
    rw [length_take, length_drop]
  have hoff := h.chunks.off_le
  have hpos := u.chunk_pos
  have hlooping : s.pc.looping = true := by rw [hpc]; rfl
  unfold Upload.readChunk
  dsimp only
  split_ifs with hend hshort
  · -- the end of the input right behind a chunk
    have hoff' : s.off = u.data.length := by
      rw [hend.1, length_nil] at hlen
      omega
    exact h.move nofun hlogged (.inl hoff') (by rw [hpc]; rfl)
  · refine ⟨h.chunks.launch hlooping rfl nofun, Writes.launch hlogged _ _ _, .inl ?_, ?_⟩
    · dsimp only
      omega
    · unfold Counted
      simp only [Pc.held, countP_append, countP_singleton, Stage.holdsToken, if_true] at hcounted ⊢
      omega
  · refine ⟨h.chunks.launch hlooping rfl fun _ => ?_, Writes.launch hlogged _ _ _, trivial, ?_⟩
    · omega
    · unfold Counted
      simp only [Pc.held, countP_append, countP_singleton, Stage.holdsToken, if_true] at hcounted ⊢
      omega

theorem ended_of_all (h : s.parts.all (fun p => p.stage = .ended true ∨ p.stage = .ended false) = true) :
    ∀ p ∈ s.parts, ∃ ok, p.stage = .ended ok := by
  intro p hp
  rcases of_decide_eq_true (all_eq_true.mp h p hp) with hok | hok
  · exact ⟨true, hok⟩
  · exact ⟨false, hok⟩

/-- With one token the loop and the goroutines take turns. -/
theorem not_writing_of_held (hinv : Inv u s) (hone : u.concurrency = 1) (hheld : s.pc.held = 1) :
    ∀ p ∈ s.parts, p.stage ≠ .writing := by
  intro p hp hwriting
  have hcounted := hinv.counted
  unfold Counted at hcounted
  have hpos : 0 < s.parts.countP (·.stage.holdsToken) :=
    countP_pos_iff.mpr ⟨p, hp, by rw [hwriting]; rfl⟩
  omega

theorem inv_step (h : Inv u s) {a : Action} (hstep : u.step s a = some s') : Inv u s' := by
  have hlogged := h.logged
  have hleft := h.left
  have hcounted := h.counted
  unfold Logged at hlogged
  unfold Left at hleft
  unfold Counted at hcounted
  cases a with simp only [Upload.step] at hstep
  | get =>
    split_ifs at hstep with hpc
    cases hstep
    rw [hpc.1] at hlogged
    exact h.move (fun _ => by rw [hpc.1]; rfl) hlogged trivial (by rw [hpc.1]; exact Nat.sub_add_cancel hpc.2)
  | check =>
    split_ifs at hstep with hpc herr <;> cases hstep <;> rw [hpc] at hlogged
    · refine h.move nofun hlogged (.inr ?_) (by rw [hpc]; rfl)
      rw [State.gCtxErr, Bool.or_eq_true, any_eq_true] at herr
      simpa using herr
    · exact h.move (fun _ => by rw [hpc]; rfl) hlogged trivial (by rw [hpc]; rfl)
  | read =>
    split_ifs at hstep with hpc
    cases hstep
    exact h.readChunk hpc
  | readError =>
    split_ifs at hstep with hpc
    cases hstep
    have hquiet := fun hone => not_writing_of_held h hone (by rw [hpc]; rfl)
    exact h.move nofun trivial hquiet (by rw [hpc]; rfl)
  | writeChunk i ok =>
    split at hstep
    · rename_i p hp
      by_cases hwriting : p.stage = .writing
      case neg =>
        rw [if_neg hwriting] at hstep
        cases hstep
      rw [if_pos hwriting] at hstep
      cases hstep
      refine h.setStage hp (by simp [hwriting]) (by nofun) (fun writes hwrites => ?_) (by rw [hwriting]; rfl)
      cases ok with
      | false => exact .inl ⟨rfl, hwrites.setStage hp (by rw [hwriting]; rfl)⟩
      | true => exact .inr ⟨rfl, hwrites.wrote hp hwriting⟩
    · cases hstep
  | free i | finish i =>
    split at hstep
    · rename_i p hp
      split at hstep
      · rename_i ok hok
        cases hstep
        exact h.setStage hp (by simp [hok]) (by nofun)
          (fun writes hwrites => .inl ⟨rfl, hwrites.setStage hp (by rw [hok]; rfl)⟩) (by rw [hok]; rfl)
      · cases hstep
    · cases hstep
  | wait =>
    split_ifs at hstep with hpc hfailed hsize <;> cases hstep
    · exact h.move nofun trivial (ended_of_all hpc.2) (by rw [hpc.1]; rfl)
    · exact h.move nofun trivial (ended_of_all hpc.2) (by rw [hpc.1]; rfl)
    · rw [hpc.1] at hlogged hleft
      have hnone : ¬ ∃ p ∈ s.parts, p.stage = .ended false := by
        simpa [any_eq_true] using hfailed
      refine h.move nofun hlogged ⟨fun p hp => ?_, ?_, fun hnonneg => ?_⟩ (by rw [hpc.1]; rfl)
      · obtain ⟨ok, hok⟩ := ended_of_all hpc.2 p hp
        cases ok with
        | false => exact absurd ⟨p, hp, hok⟩ hnone
        | true => exact hok
      · exact hleft.imp_right fun hor => hor.resolve_right hnone
      · by_contra hne
        exact hsize ⟨hnonneg, hne⟩
  | close ok =>
    by_cases hpc : s.pc = .close
    case neg =>
      rw [if_neg hpc] at hstep
      cases hstep
    rw [if_pos hpc] at hstep
    rw [hpc] at hlogged hcounted hleft
    cases ok with
    | false =>
      cases hstep
      exact ⟨h.chunks.congr rfl rfl nofun, trivial, fun p hp => ⟨true, hleft.1 p hp⟩, hcounted⟩
    | true =>
      cases hstep
      exact ⟨h.chunks.congr rfl rfl nofun, ⟨s.log, rfl, hlogged⟩, hleft, hcounted⟩
  | abort =>
    split at hstep
    · rename_i reading hpc
      cases hstep
      rw [hpc] at hcounted
      exact ⟨h.chunks.congr rfl rfl nofun, trivial, trivial, hcounted⟩
    · cases hstep
  | cancel =>
    cases hstep
    refine ⟨h.chunks.congr rfl rfl id, hlogged, ?_, hcounted⟩
    unfold Left
    cases hpc : s.pc with
    | wait => exact .inr (.inl rfl)
    | close =>
      rw [hpc] at hleft
      exact ⟨hleft.1, .inr rfl, hleft.2.2⟩
    | returned ok =>
      rw [hpc] at hleft
      cases ok with
      | false => trivial
      | true => exact ⟨hleft.1, .inr rfl, hleft.2.2⟩
    | failed reading =>
      rw [hpc] at hleft
      cases reading with
      | false => exact hleft
      | true => exact hleft
    | _ => trivial

theorem inv_start (u : Upload) : Inv u u.start where
  chunks := ⟨Nat.zero_le _, rfl, nofun, fun _ => nofun⟩
  logged := ⟨nodup_nil, fun e => iff_of_false not_mem_nil (by rintro ⟨i, p, hp, -⟩; cases hp)⟩
  left := trivial
  counted := rfl

theorem inv_reachable (h : u.Reachable s) : Inv u s :=
  @Run.invariant _ u.Next (Inv u) (fun _ _ hinv ⟨_, hstep⟩ => inv_step hinv hstep) _ _ h (inv_start u)

end Keeps

/-! ## What an upload has done -/

section Safety

variable {u : Upload} {s s' : State}

/-- The chunks from zero on have been written once each, all but the last one are full, they are the input, and the
upload has been closed once behind them. -/
def Upload.Complete (u : Upload) (s : State) : Prop :=
  ∃ (chunks : List (List UInt8)) (writes : List Event), s.log = writes ++ [.closed] ∧ writes.Nodup ∧
    (∀ e, e ∈ writes ↔ ∃ i b, chunks[i]? = some b ∧ e = .wrote i b) ∧
    (∀ b ∈ chunks.dropLast, b.length = u.chunkSize) ∧ chunks.flatten = u.data

/-- Some `WriteChunk` has not returned. -/
def State.Writing (s : State) : Prop := ∃ p ∈ s.parts, p.stage = .writing

section

variable (hinv : Inv u s) (hpc : s.pc = .returned true)

include hinv hpc

/-- What has been written when the upload is returned. -/
theorem log_of_returned : ∃ writes, s.log = writes ++ [.closed] ∧
    writes.Nodup ∧ ∀ e, e ∈ writes ↔ ∃ i b, (s.parts.map (·.bytes))[i]? = some b ∧ e = .wrote i b := by
  have hlogged := hinv.logged
  have hleft := hinv.left
  unfold Logged at hlogged
  unfold Left at hleft
  rw [hpc] at hlogged hleft
  obtain ⟨writes, hlog, hnodup, hwrites⟩ := hlogged
  refine ⟨writes, hlog, hnodup, fun e => (hwrites e).trans ?_⟩
  constructor
  · rintro ⟨i, p, hp, -, rfl⟩
    exact ⟨i, p.bytes, by rw [getElem?_map, hp]; rfl, rfl⟩
  · rintro ⟨i, b, hb, rfl⟩
    rw [getElem?_map] at hb
    obtain ⟨p, hp, rfl⟩ := Option.map_eq_some_iff.mp hb
    exact ⟨i, p, hp, by rw [hleft.1 p (mem_of_getElem? hp)]; rfl, rfl⟩

theorem complete_iff : u.Complete s ↔ s.off = u.data.length := by
  obtain ⟨writes, hlog, hnodup, hwrites⟩ := log_of_returned hinv hpc
  have hbytes := hinv.chunks.bytes
  constructor
  · rintro ⟨chunks, writes', hlog', -, hwrites', -, hdata⟩
    obtain rfl : writes = writes' := append_cancel_right (hlog.symm.trans hlog')
    -- the log tells the chunks
    have hchunks : chunks = s.parts.map (·.bytes) := by
      apply ext_getElem?
      intro i
      apply Option.ext
      intro b
      have hiff := (hwrites' (.wrote i b)).symm.trans (hwrites (.wrote i b))
      simpa using hiff
    rw [hchunks, hbytes] at hdata
    have hlen := congrArg length hdata
    have hle := hinv.chunks.off_le
    rw [length_take] at hlen
    omega
  · intro hoff
    refine ⟨s.parts.map (·.bytes), writes, hlog, hnodup, hwrites, hinv.chunks.init, ?_⟩
    rw [hbytes, hoff, take_length]

/-- Everything has been read unless the context was cancelled, and then only the declared size is checked. -/
theorem off_of_returned : (s.off = u.data.length ∨ s.cancelled = true) ∧ (0 ≤ u.size → (s.off : Int) = u.size) := by
  have hleft := hinv.left
  unfold Left at hleft
  rw [hpc] at hleft
  exact hleft.2

end

theorem not_writing_of_close (hreach : u.Reachable s) {ok : Bool} (hstep : u.step s (.close ok) = some s') :
    ¬ s.Writing := by
  have hleft := (inv_reachable hreach).left
  unfold Left at hleft
  simp only [Upload.step] at hstep
  by_cases hpc : s.pc = .close
  · rw [hpc] at hleft
    rintro ⟨p, hp, hwriting⟩
    rw [hleft.1 p hp] at hwriting
    cases hwriting
  · rw [if_neg hpc] at hstep
    cases hstep

theorem not_writing_of_abort (hreach : u.Reachable s) (hstep : u.step s .abort = some s')
    (hreading : s.pc ≠ .failed true ∨ u.concurrency = 1) : ¬ s.Writing := by
  have hleft := (inv_reachable hreach).left
  unfold Left at hleft
  simp only [Upload.step] at hstep
  split at hstep
  · rename_i reading hpc
    rw [hpc] at hleft
    rintro ⟨p, hp, hwriting⟩
    cases reading with
    | false =>
      obtain ⟨ok, hok⟩ := hleft p hp
      rw [hok] at hwriting
      cases hwriting
    | true => exact hleft (hreading.resolve_left fun hne => hne hpc) p hp hwriting
  · cases hstep

/-- An upload that is returned is complete exactly if everything had been read, as it has when the context was not
cancelled or the declared size was the right one. No chunk is being written when the upload is closed, or when it is
aborted unless there was a read error and more than one token. -/
theorem uploadMultipart_safe (u : Upload) (s : State) (hreach : u.Reachable s) :
    (s.pc = .returned true → (u.Complete s ↔ s.off = u.data.length) ∧
      (s.cancelled = false ∨ u.size = u.data.length → u.Complete s)) ∧
    (∀ ok s', u.step s (.close ok) = some s' → ¬ s.Writing) ∧
    (∀ s', u.step s .abort = some s' → s.pc ≠ .failed true ∨ u.concurrency = 1 → ¬ s.Writing) := by
  refine ⟨fun hpc => ?_, fun ok s' => not_writing_of_close hreach, fun s' => not_writing_of_abort hreach⟩
  have hinv := inv_reachable hreach
  obtain ⟨hoff, hsize⟩ := off_of_returned hinv hpc
  refine ⟨complete_iff hinv hpc, fun hcause => (complete_iff hinv hpc).mpr ?_⟩
  rcases hcause with hcancelled | hexact
  · exact hoff.resolve_right (by rw [hcancelled]; nofun)
  · have := hsize (by omega)
    omega

end Safety

/-! ## Runs -/

theorem reachable_of_run {u : Upload} {actions : List Action} {s : State} (h : u.run actions = some s) :
    u.Reachable s :=
  Run.of_foldlM h

/-- Two bytes of unknown size in chunks of one byte. -/
def twoBytes (infoConcurrency : Int) : Upload := ⟨[1, 2], -1, 1, by decide, infoConcurrency, false⟩

/-- One turn of the loop, with nothing else in between. -/
def turn : List Action := [.get, .check, .read]

/-- A goroutine from its chunk to its end. -/
def goroutine (i : Nat) : List Action := [.writeChunk i true, .free i, .finish i]

theorem uploadMultipart_safe_twoBytes : ∃ s, (twoBytes 2).Reachable s ∧ s.pc = .returned true ∧ s.cancelled = false ∧
    (twoBytes 2).Complete s := by
  have hrun : (twoBytes 2).run (turn ++ turn ++ goroutine 1 ++ goroutine 0 ++ turn ++ [.wait, .close true]) =
      some ⟨.returned true, 2, [⟨[1], .ended true⟩, ⟨[2], .ended true⟩], 2, false,
        [.wrote 1 [2], .wrote 0 [1], .closed]⟩ := by
    rfl
  exact ⟨_, reachable_of_run hrun, rfl, rfl,
    ((uploadMultipart_safe _ _ (reachable_of_run hrun)).1 rfl).2 (.inl rfl)⟩

/-- The context is cancelled behind the first chunk: the upload is closed and returned without the second byte. The
second read fails while the first chunk is being written: the upload is aborted at once. -/
theorem truncated_and_aborted_early :
    (∃ s, (twoBytes 1).Reachable s ∧ s.pc = .returned true ∧ s.log = [.wrote 0 [1], .closed] ∧
      ¬ (twoBytes 1).Complete s) ∧
    ∃ s s', (twoBytes 2).Reachable s ∧ s.Writing ∧ (twoBytes 2).step s .abort = some s' ∧ s'.log = [.aborted] := by
  constructor
  · have hrun : (twoBytes 1).run (turn ++ goroutine 0 ++ [.cancel, .get, .check, .wait, .close true]) =
        some ⟨.returned true, 1, [⟨[1], .ended true⟩], 1, true, [.wrote 0 [1], .closed]⟩ := by rfl
    refine ⟨_, reachable_of_run hrun, rfl, rfl, ?_⟩
    rw [complete_iff (inv_reachable (reachable_of_run hrun)) rfl]
    decide
  · have hrun : (twoBytes 2).run (turn ++ [.get, .check, .readError]) =
        some ⟨.failed true, 1, [⟨[1], .writing⟩], 1, false, []⟩ := by rfl
    exact ⟨_, _, reachable_of_run hrun, ⟨_, mem_cons_self, rfl⟩, rfl, rfl⟩

/-- No more chunks are written at a time than there are tokens, and **an upload is never stuck** before it is
returned. -/
theorem never_stuck {u : Upload} {s : State} (hreach : u.Reachable s) :
    s.parts.countP (·.stage.holdsToken) ≤ u.concurrency ∧
    ((∀ a, a ≠ .cancel → u.step s a = none) → ∃ ok, s.pc = .returned ok) := by
  have hcounted : _ + _ + _ = (max u.infoConcurrency 1).toNat := (inv_reachable hreach).counted
  refine ⟨by rw [Upload.concurrency]; omega, fun h => ?_⟩
  have hended : ∀ p ∈ s.parts, p.stage = .ended true ∨ p.stage = .ended false := by
    intro p hp
    obtain ⟨i, hi⟩ := mem_iff_getElem?.mp hp
    have hwrite := h (.writeChunk i true) nofun
    have hfree := h (.free i) nofun
    have hfinish := h (.finish i) nofun
    cases hstage : p.stage <;> simp_all [Upload.step]
  -- so all the tokens are free
  have hfree : s.parts.countP (·.stage.holdsToken) = 0 := by
    refine countP_eq_zero.mpr fun p hp => ?_
    rcases hended p hp with hok | hok <;> simp [hok, Stage.holdsToken]
  cases hpc : s.pc with
  | get =>
    have hget := h .get nofun
    simp only [hfree, hpc, Pc.held] at hcounted
    simp only [Upload.step, hpc] at hget
    grind
  | check => grind [Upload.step, h .check nofun]
  | read => grind [Upload.step, h .read nofun]
  | wait => grind [Upload.step, h .wait nofun]
  | close => grind [Upload.step, h (.close true) nofun]
  | failed => grind [Upload.step, h .abort nofun]
  | returned ok => exact ⟨ok, rfl⟩

/-- While the one token is held and the reader waits for it some step is possible; after a cancelled upload has been
closed, none but to cancel again. -/
theorem never_stuck_twoBytes :
    [Part.mk [1] .writing].countP (·.stage.holdsToken) ≤ (twoBytes 1).concurrency ∧
    (∃ a ≠ .cancel, (twoBytes 1).step ⟨.get, 1, [⟨[1], .writing⟩], 0, false, []⟩ a ≠ none) ∧
    ∃ s, (twoBytes 1).Reachable s ∧ (∀ a ≠ .cancel, (twoBytes 1).step s a = none) ∧ ∃ ok, s.pc = .returned ok := by
  have hturn := reachable_of_run (show (twoBytes 1).run turn = some ⟨.get, 1, [⟨[1], .writing⟩], 0, false, []⟩ from rfl)
  refine ⟨(never_stuck hturn).1, ?_, ?_⟩
  · by_contra hstuck
    obtain ⟨ok, hpc⟩ := (never_stuck hturn).2 fun a ha => not_not.mp fun h => hstuck ⟨a, ha, h⟩
    cases hpc
  · have hend := reachable_of_run (show
        (twoBytes 1).run (turn ++ goroutine 0 ++ [.cancel, .get, .check, .wait, .close true]) =
          some ⟨.returned true, 1, [⟨[1], .ended true⟩], 1, true, [.wrote 0 [1], .closed]⟩ from rfl)
    refine ⟨_, hend, ?hnone, (never_stuck hend).2 ?hnone⟩
    rintro (_ | _ | _ | _ | ⟨_ | _, _⟩ | ⟨_ | _⟩ | ⟨_ | _⟩ | _ | _ | _ | _) ha <;> first | rfl | exact absurd rfl ha

end ZClone.Multipart
