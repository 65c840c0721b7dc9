import Mathlib.Data.UInt
import Mathlib.Data.List.Range
import Mathlib.Data.List.Nodup
import Mathlib.Logic.Function.Basic
import ZClone.Lib.File
import ZClone.Lib.Run

/-!
# Appending to a cached file (`vfs/read_write.go`, `vfs/vfscache/item.go`)

A handle opened with `O_APPEND` asks for the size of the file before each write, and writes there. The size is read with
the item lock held, the file is written without it, and the lock of the handle does not keep other handles away.

- `step` takes one call through its next region: the lock of the handle, the size, the write, the end.
- `Apart`: no two calls are between the size and the write. `append_all`: as long as that holds, the buffers end up in
  the file one after another. It holds if all calls are `Write` on one handle (`append_one_handle`).
- `append_overwrites`: two handles at the same time.
-/

namespace ZClone.Vfs.Append

open File Relation List Function

/-- A `Write` call, or a `WriteAt` call, which releases the lock of the handle for the write. -/
structure Call where
  handle : Nat
  b : List UInt8
  release : Bool := false

inductive Pc where
  | start
  | locked
  /-- The size has been read. -/
  | sized (off : Nat)
  | written
  | done
  deriving DecidableEq

structure State where
  /-- The backing file. -/
  file : List UInt8
  /-- The locks of the handles. -/
  lock : Nat → Bool
  pc : Nat → Pc

def init (file : List UInt8) : State := ⟨file, fun _ => false, fun _ => .start⟩

section

variable (calls : List Call) {i : Nat}

/-- The next region of one call. -/
def step (s : State) (i : Nat) : Option State :=
  calls[i]?.bind fun c =>
    match s.pc i with
    | .start =>
      if s.lock c.handle then none
      else some { s with lock := Function.update s.lock c.handle true, pc := Function.update s.pc i .locked }
    | .locked =>
      some { s with
        lock := if c.release then Function.update s.lock c.handle false else s.lock
        pc := Function.update s.pc i (.sized s.file.length) }
    | .sized off => some { s with file := pwrite s.file c.b off, pc := Function.update s.pc i .written }
    | .written =>
      -- a call that has released the lock takes it once more
      if c.release then
        if s.lock c.handle then none else some { s with pc := Function.update s.pc i .done }
      else some { s with lock := Function.update s.lock c.handle false, pc := Function.update s.pc i .done }
    | .done => none

/-- What a step can do. -/
inductive Step (s : State) : State → Prop
  | lock {i c} (hc : calls[i]? = some c) (hpc : s.pc i = .start) (hfree : s.lock c.handle = false) :
    Step s { s with lock := Function.update s.lock c.handle true, pc := Function.update s.pc i .locked }
  | size {i c} (hc : calls[i]? = some c) (hpc : s.pc i = .locked) :
    Step s { s with
      lock := if c.release then Function.update s.lock c.handle false else s.lock
      pc := Function.update s.pc i (.sized s.file.length) }
  | write {i c off} (hc : calls[i]? = some c) (hpc : s.pc i = .sized off) :
    Step s { s with file := pwrite s.file c.b off, pc := Function.update s.pc i .written }
  | relock {i c} (hc : calls[i]? = some c) (hpc : s.pc i = .written) (hrelease : c.release = true)
      (hfree : s.lock c.handle = false) :
    Step s { s with pc := Function.update s.pc i .done }
  | unlock {i c} (hc : calls[i]? = some c) (hpc : s.pc i = .written) (hrelease : c.release = false) :
    Step s { s with lock := Function.update s.lock c.handle false, pc := Function.update s.pc i .done }

variable {calls}

theorem Step.of_step {s s' : State} (h : step calls s i = some s') : Step calls s s' := by
  obtain ⟨c, hc, h⟩ := Option.bind_eq_some_iff.mp h
  cases hpc : s.pc i with rw [hpc] at h
  | start =>
    by_cases hlock : s.lock c.handle = true
    · simp [hlock] at h
    · simp only [hlock, Bool.false_eq_true, if_false, Option.some.injEq] at h
      exact h ▸ .lock hc hpc (Bool.eq_false_iff.mpr hlock)
  | locked =>
    exact Option.some.inj h ▸ .size hc hpc
  | sized off =>
    exact Option.some.inj h ▸ .write hc hpc
  | written =>
    by_cases hrelease : c.release = true
    · by_cases hlock : s.lock c.handle = true
      · simp [hrelease, hlock] at h
      · simp only [hrelease, hlock, Bool.false_eq_true, if_false, if_true, Option.some.injEq] at h
        exact h ▸ .relock hc hpc hrelease (Bool.eq_false_iff.mpr hlock)
    · simp only [hrelease, Bool.false_eq_true, if_false, Option.some.injEq] at h
      exact h ▸ .unlock hc hpc (Bool.eq_false_iff.mpr hrelease)
  | done =>
    cases h

/-! ## Calls that keep apart -/

/-- At most one call has read the size and not yet written. -/
def Apart (s : State) : Prop := ∀ i j off off', s.pc i = .sized off → s.pc j = .sized off' → i = j

/-- The call has written its buffer. -/
def Pc.past : Pc → Bool
  | .written | .done => true
  | _ => false

/-- The buffers of the calls, in the given order. -/
def buffers (calls : List Call) (order : List Nat) : List (List UInt8) :=
  order.map fun i => (calls[i]?.map Call.b).getD []

/-- The file has the buffers of the calls `order`, which are those that have written; a call that has read the size
knows the end. -/
structure Inv (calls : List Call) (file : List UInt8) (s : State) (order : List Nat) : Prop where
  nodup : order.Nodup
  mem : ∀ i, i ∈ order ↔ (s.pc i).past = true
  lt : ∀ i ∈ order, i < calls.length
  file : s.file = file ++ (buffers calls order).flatten
  sized : ∀ i off, s.pc i = .sized off → off = s.file.length

variable {file : List UInt8} {s s' : State} {order : List Nat} {pc : Pc}

theorem inv_init (calls : List Call) (file : List UInt8) : Inv calls file (init file) [] :=
  ⟨nodup_nil, fun _ => by simp [init, Pc.past], nofun, by simp [buffers, init], nofun⟩

theorem buffers_range (calls : List Call) : buffers calls (List.range calls.length) = calls.map Call.b := by
  refine ext_getElem (by simp [buffers]) fun i hi hi' => ?_
  rw [length_map] at hi'
  simp [buffers, hi']

/-- The new file is the old one and the buffers in some order. -/
def Appended (calls : List Call) (file file' : List UInt8) : Prop :=
  ∃ bs : List (List UInt8), bs.Perm (calls.map Call.b) ∧ file' = file ++ bs.flatten

section

variable (hinv : Inv calls file s order)

include hinv

/-- A call comes to another place on the same side of its write. -/
theorem Inv.move {lock : Nat → Bool} (hpast : pc.past = (s.pc i).past)
    (hsized : ∀ off, pc = .sized off → off = s.file.length) :
    Inv calls file ⟨s.file, lock, Function.update s.pc i pc⟩ order := by
  refine ⟨hinv.nodup, fun j => ?_, hinv.lt, hinv.file, fun j off hj => ?_⟩
  · by_cases hji : j = i
    · subst hji
      simp only [hinv.mem, update_self, hpast]
    · simp only [hinv.mem, update_of_ne hji]
  · by_cases hji : j = i
    · subst hji
      simp only [update_self] at hj
      exact hsized off hj
    · simp only [update_of_ne hji] at hj
      exact hinv.sized j off hj

/-- The one call that has read the size appends its buffer. -/
theorem Inv.write (hapart : Apart s) {off : Nat} {c : Call} (hc : calls[i]? = some c)
    (hpc : s.pc i = .sized off) :
    Inv calls file ⟨pwrite s.file c.b off, s.lock, Function.update s.pc i .written⟩ (order ++ [i]) := by
  have hnew : i ∉ order := by
    rw [hinv.mem, hpc]
    nofun
  refine ⟨?_, fun j => ?_, ?_, ?_, fun j off' hj => ?_⟩
  · refine nodup_append.mpr ⟨hinv.nodup, nodup_singleton i, fun j hj k hk => ?_⟩
    rintro rfl
    exact hnew (mem_singleton.mp hk ▸ hj)
  · rw [mem_append, mem_singleton, hinv.mem]
    by_cases hji : j = i
    · subst hji
      simp [Pc.past]
    · simp [hji]
  · exact forall_mem_append.mpr ⟨hinv.lt, by simpa using (List.getElem?_eq_some_iff.mp hc).1⟩
  · show pwrite s.file c.b off = _
    rw [hinv.sized i off hpc, pwrite_length, buffers, map_append, flatten_append, ← append_assoc, hinv.file, buffers]
    simp [hc]
  · -- nobody else has read the size
    by_cases hji : j = i
    · subst hji
      simp at hj
    · simp only [update_of_ne hji] at hj
      exact absurd (hapart j i off' off hj hpc) hji

theorem Inv.step (hapart : Apart s) (hstep : Step calls s s') : ∃ order', Inv calls file s' order' := by
  cases hstep with
  | lock hc hpc hfree | relock hc hpc hrelease hfree | unlock hc hpc hrelease =>
    exact ⟨order, hinv.move (by rw [hpc]; rfl) nofun⟩
  | size hc hpc => exact ⟨order, hinv.move (by rw [hpc]; rfl) fun off h => (Pc.sized.inj h).symm⟩
  | write hc hpc => exact ⟨_, hinv.write hapart hc hpc⟩

/-- When all calls have returned, the file is the old one and the buffers in some order. -/
theorem Inv.all_done (hdone : ∀ i < calls.length, s.pc i = .done) : Appended calls file s.file := by
  have hperm : order.Perm (List.range calls.length) := by
    refine (perm_ext_iff_of_nodup hinv.nodup nodup_range).mpr fun i => ?_
    rw [mem_range]
    exact ⟨hinv.lt i, fun hi => by rw [hinv.mem, hdone i hi]; rfl⟩
  refine ⟨buffers calls order, ?_, hinv.file⟩
  rw [← buffers_range]
  exact hperm.map _

end

/-- As long as no two calls are between the size and the write, nothing is overwritten. -/
theorem append_all (hrun : ReflTransGen (fun s s' => Step calls s s' ∧ Apart s') (init file) s)
    (hdone : ∀ i < calls.length, s.pc i = .done) :
    Appended calls file s.file := by
  have hkeep : ∀ s s', (Apart s ∧ ∃ order, Inv calls file s order) → Step calls s s' ∧ Apart s' → Apart s' ∧
      ∃ order, Inv calls file s' order := by
    rintro s s' ⟨hapart, order, hinv⟩ ⟨hstep, hapart'⟩
    exact ⟨hapart', hinv.step hapart hstep⟩
  obtain ⟨-, order, hinv⟩ := Run.invariant hkeep hrun ⟨nofun, [], inv_init calls file⟩
  exact hinv.all_done hdone

theorem apart_of_one {k : Nat} (h : ∀ i off, i ≠ k → s.pc i ≠ .sized off) : Apart s := by
  have hk : ∀ i off, s.pc i = .sized off → i = k := fun i off hi => by
    by_contra hne
    exact h i off hne hi
  exact fun i j off off' hi hj => (hk i off hi).trans (hk j off' hj).symm

def twoHandles : List Call := [{ handle := 0, b := [1] }, { handle := 1, b := [2] }]

/-- Two handles at the same time; the second call asks for the size when the first one has written. -/
theorem append_all_twoHandles : ∃ s, ReflTransGen (fun s s' => Step twoHandles s s' ∧ Apart s') (init [0]) s ∧
    Appended twoHandles [0] s.file ∧ s.file = [0, 1, 2] := by
  have hrun : ReflTransGen (fun s s' => Step twoHandles s s' ∧ Apart s') (init [0]) _ :=
    .head ⟨.lock (i := 0) rfl rfl rfl, apart_of_one (k := 0) fun i off hi => by simp [init, hi]⟩ <|
    .head ⟨.lock (i := 1) rfl rfl rfl, apart_of_one (k := 1) fun i off hi => by
      by_cases h0 : i = 0 <;> simp [init, hi, h0]⟩ <|
    .head ⟨.size (i := 0) rfl rfl, apart_of_one (k := 0) fun i off hi => by
      by_cases h1 : i = 1 <;> simp [init, hi, h1]⟩ <|
    .head ⟨.write (i := 0) rfl rfl, apart_of_one (k := 0) fun i off hi => by
      by_cases h1 : i = 1 <;> simp [init, hi, h1]⟩ <|
    .head ⟨.size (i := 1) rfl rfl, apart_of_one (k := 1) fun i off hi => by
      by_cases h0 : i = 0 <;> simp [init, hi, h0]⟩ <|
    .head ⟨.unlock (i := 0) rfl rfl rfl, apart_of_one (k := 1) fun i off hi => by
      by_cases h0 : i = 0 <;> simp [init, hi, h0]⟩ <|
    .head ⟨.write (i := 1) rfl rfl, apart_of_one (k := 1) fun i off hi => by
      by_cases h0 : i = 0 <;> simp [init, hi, h0]⟩ <|
    .single ⟨.unlock (i := 1) rfl rfl rfl, apart_of_one (k := 1) fun i off hi => by
      by_cases h0 : i = 0 <;> simp [init, hi, h0]⟩
  refine ⟨_, hrun, append_all hrun fun i hi => ?_, rfl⟩
  have hlt : i < 2 := hi
  obtain rfl | rfl : i = 0 ∨ i = 1 := by omega
  · rfl
  · rfl

/-! ## One handle -/

/-- The places of a call that has the lock of its handle. -/
def Pc.holds : Pc → Bool
  | .start | .done => false
  | _ => true

/-- With `Write` only, the lock of a handle belongs to one call from its beginning to its end. -/
structure Locked (calls : List Call) (s : State) : Prop where
  known : ∀ {i}, (s.pc i).holds = true → ∃ c, calls[i]? = some c
  lock : ∀ {i c}, calls[i]? = some c → (s.pc i).holds = true → s.lock c.handle = true
  unique : ∀ {i j c d}, calls[i]? = some c → calls[j]? = some d → c.handle = d.handle → (s.pc i).holds = true →
    (s.pc j).holds = true → i = j

/-- A call that has the lock comes to another place where it has it. -/
theorem Locked.move (hlocked : Locked calls s) {file' : List UInt8} (hpc : (s.pc i).holds = true) :
    Locked calls ⟨file', s.lock, Function.update s.pc i pc⟩ := by
  have hold : ∀ {j}, (Function.update s.pc i pc j).holds = true → (s.pc j).holds = true := by
    intro j hj
    by_cases hji : j = i
    · exact hji ▸ hpc
    · rwa [update_of_ne hji] at hj
  exact ⟨fun h => hlocked.known (hold h), fun hc h => hlocked.lock hc (hold h),
    fun hc hd heq hi hj => hlocked.unique hc hd heq (hold hi) (hold hj)⟩

theorem Locked.step (hwrite : ∀ c ∈ calls, c.release = false) (hlocked : Locked calls s) (hstep : Step calls s s') :
    Locked calls s' := by
  cases hstep with
  | @lock i c hc hpc hfree =>
    -- no other call had the lock
    have hother : ∀ {j d}, j ≠ i → calls[j]? = some d → (Function.update s.pc i .locked j).holds = true →
        d.handle ≠ c.handle ∧ (s.pc j).holds = true := by
      intro j d hji hd hj
      rw [update_of_ne hji] at hj
      refine ⟨fun heq => ?_, hj⟩
      have htrue := hlocked.lock hd hj
      rw [heq, hfree] at htrue
      cases htrue
    refine ⟨fun {j} hj => ?_, fun {j d} hd hj => ?_, fun {j k d e} hd he heq hj hk => ?_⟩
    · by_cases hji : j = i
      · exact ⟨c, hji ▸ hc⟩
      · simp only [update_of_ne hji] at hj
        exact hlocked.known hj
    · by_cases hji : j = i
      · subst hji
        cases hc.symm.trans hd
        simp
      · obtain ⟨hne, hj⟩ := hother hji hd hj
        simp only [update_of_ne hne]
        exact hlocked.lock hd hj
    · by_cases hji : j = i <;> by_cases hki : k = i
      · exact hji.trans hki.symm
      · subst hji
        cases hc.symm.trans hd
        exact absurd heq.symm (hother hki he hk).1
      · subst hki
        cases hc.symm.trans he
        exact absurd heq (hother hji hd hj).1
      · exact hlocked.unique hd he heq (hother hji hd hj).2 (hother hki he hk).2
  | @size i c hc hpc =>
    rw [hwrite c (mem_of_getElem? hc)]
    exact hlocked.move (by rw [hpc]; rfl)
  | @write i c off hc hpc => exact hlocked.move (by rw [hpc]; rfl)
  | @relock i c hc hpc hrelease hfree =>
    rw [hwrite c (mem_of_getElem? hc)] at hrelease
    cases hrelease
  | @unlock i c hc hpc hrelease =>
    have hholds : (s.pc i).holds = true := by
      rw [hpc]
      rfl
    have hold : ∀ {j}, (Function.update s.pc i .done j).holds = true → j ≠ i ∧ (s.pc j).holds = true := by
      intro j hj
      by_cases hji : j = i
      · subst hji
        rw [update_self] at hj
        cases hj
      · rw [update_of_ne hji] at hj
        exact ⟨hji, hj⟩
    refine ⟨fun h => hlocked.known (hold h).2, fun {j d} hd hj => ?_,
      fun hd he heq hj hk => hlocked.unique hd he heq (hold hj).2 (hold hk).2⟩
    obtain ⟨hji, hj⟩ := hold hj
    have hne : d.handle ≠ c.handle := fun heq => hji (hlocked.unique hd hc heq hj hholds)
    simp only [update_of_ne hne]
    exact hlocked.lock hd hj

/-- `Write` calls on one handle never overwrite one another. -/
theorem append_one_handle {h : Nat} (hwrite : ∀ c ∈ calls, c.release = false ∧ c.handle = h)
    (hrun : ReflTransGen (Step calls) (init file) s)
    (hdone : ∀ i < calls.length, s.pc i = .done) : Appended calls file s.file := by
  have hkeep : ∀ s s', (Locked calls s ∧ ∃ order, Inv calls file s order) → Step calls s s' → Locked calls s' ∧
      ∃ order, Inv calls file s' order := by
    rintro s s' ⟨hlocked, order, hinv⟩ hstep
    refine ⟨hlocked.step (fun c hc => (hwrite c hc).1) hstep, hinv.step ?_ hstep⟩
    intro i j off off' hi hj
    have hi : (s.pc i).holds = true := by rw [hi]; rfl
    have hj : (s.pc j).holds = true := by rw [hj]; rfl
    obtain ⟨c, hc⟩ := hlocked.known hi
    obtain ⟨d, hd⟩ := hlocked.known hj
    exact hlocked.unique hc hd ((hwrite c (mem_of_getElem? hc)).2.trans (hwrite d (mem_of_getElem? hd)).2.symm) hi hj
  obtain ⟨-, order, hinv⟩ := Run.invariant hkeep hrun ⟨⟨nofun, nofun, nofun⟩, [], inv_init calls file⟩
  exact hinv.all_done hdone

theorem append_one_handle_two :
    ∃ s : State, s.file = [0, 1, 2] ∧ Appended [⟨0, [1], false⟩, ⟨0, [2], false⟩] [0] s.file := by
  have hs : [0, 0, 0, 0, 1, 1, 1, 1].foldlM (step [⟨0, [1], false⟩, ⟨0, [2], false⟩]) (init [0]) = some _ := rfl
  exact ⟨_, by decide +kernel, append_one_handle (h := 0) (by simp)
    (ReflTransGen.mono (fun _ _ ⟨_, hi⟩ => Step.of_step hi) _ _ (Run.of_foldlM hs)) (by decide +kernel)⟩

end

/-! ## Two handles -/

/-- Both calls read the size before one of them writes. -/
theorem append_overwrites :
    ∃ s, ReflTransGen (Step twoHandles) (init [0]) s ∧ (∀ i < twoHandles.length, s.pc i = .done) ∧ s.file = [0, 2] ∧
    ¬ Appended twoHandles [0] s.file := by
  have hrun : ([0, 1, 0, 1, 0, 1, 0, 1].foldlM (step twoHandles) (init [0])).isSome = true := rfl
  obtain ⟨s, hs⟩ := Option.isSome_iff_exists.mp hrun
  have hfile : s.file = [0, 2] := by
    cases hs
    decide +kernel
  refine ⟨s, ReflTransGen.mono (fun s s' ⟨i, hi⟩ => Step.of_step hi) _ _ (Run.of_foldlM hs), ?_, hfile, ?_⟩
  · cases hs
    decide +kernel
  · rw [hfile]
    rintro ⟨bs, hperm, hbs⟩
    have hlength := congrArg length hbs
    rw [length_append, hperm.flatten.length_eq] at hlength
    exact absurd hlength (by decide)

end ZClone.Vfs.Append
