import Mathlib.Data.List.Basic

/-!
# Programs that may stop, and what they leave

`Prog σ ε α` is a program over a state `σ` that returns an `α` or stops with an `ε`. The state is kept either way:
what was done before it stopped stays done. `Triple P m Q E` says that from a state with `P` the program `m` returns
`a` in a state with `Q a`, or stops with `e` in a state with `E e`; so with `E` an invariant of the state it says what
survives a stop at any point inside `m`. The rules follow the constructors of programs (`Triple.pure`, `Triple.bind`,
`Triple.catchIf`, `Triple.foldlM`).
-/

namespace ZClone.Lib

theorem except_bind_eq_ok {ε α β : Type} {x : Except ε α} {f : α → Except ε β} {b : β} :
    (x >>= f) = .ok b ↔ ∃ a, x = .ok a ∧ f a = .ok b := by
  cases x with
  | error e =>
    constructor
    · intro h; cases h
    · rintro ⟨a, h, _⟩; cases h
  | ok a =>
    constructor
    · exact fun h => ⟨a, rfl, h⟩
    · rintro ⟨_, h, h'⟩; cases h; exact h'

def Prog (σ ε α : Type) : Type := σ → Except ε α × σ

namespace Prog

variable {σ ε α β γ : Type} {m : Prog σ ε α} {f : β → Prog σ ε α} {a : α}

instance : Monad (Prog σ ε) where
  pure a := fun s => (.ok a, s)
  bind m f := fun s =>
    match m s with
    | (.ok a, s') => f a s'
    | (.error e, s') => (.error e, s')

theorem bind_of_ok {f : α → Prog σ ε β} {s s' : σ} (h : m s = (.ok a, s')) : (m >>= f) s = f a s' := by
  show (match m s with
    | (.ok a, s') => f a s'
    | (.error e, s') => (.error e, s')) = _
  rw [h]

/-- Stop. -/
def throw (e : ε) : Prog σ ε α := fun s => (.error e, s)

/-- A computation that does not touch the state. -/
def ofExcept (x : Except ε α) : Prog σ ε α := fun s => (x, s)

/-- `m`, or `h` if `m` stops with an error that `p` accepts. -/
def catchIf (p : ε → Bool) (m h : Prog σ ε α) : Prog σ ε α := fun s =>
  match m s with
  | (.ok a, s') => (.ok a, s')
  | (.error e, s') => if p e then h s' else (.error e, s')

/-- From `P`, return with `Q` or stop with `E`. -/
def Triple (P : σ → Prop) (m : Prog σ ε α) (Q : α → σ → Prop) (E : ε → σ → Prop) : Prop :=
  ∀ s, P s → match m s with
    | (.ok a, s') => Q a s'
    | (.error e, s') => E e s'

namespace Triple

variable {P P' R : σ → Prop} {Q Q' : α → σ → Prop} {E : ε → σ → Prop}

theorem pure (h : ∀ s, P s → Q a s) : Triple P (Pure.pure a : Prog σ ε α) Q E := h

theorem throw {e : ε} (h : ∀ s, P s → E e s) : Triple P (Prog.throw e : Prog σ ε α) Q E := h

theorem ofExcept {x : Except ε α} (hok : ∀ a s, x = .ok a → P s → Q a s)
    (herr : ∀ e s, x = .error e → P s → E e s) : Triple P (Prog.ofExcept x) Q E := by
  intro s hs
  cases hx : x with
  | ok a => exact hok a s hx hs
  | error e => exact herr e s hx hs

theorem bind {R : β → σ → Prop} {m : Prog σ ε β} (hm : Triple P m R E)
    (hf : ∀ b, Triple (R b) (f b) Q E) : Triple P (m >>= f) Q E := by
  intro s hs
  have h := hm s hs
  show match (match m s with
    | (.ok a, s') => f a s'
    | (.error e, s') => (.error e, s')) with
    | (.ok a, s') => Q a s'
    | (.error e, s') => E e s'
  rcases hr : m s with ⟨_ | b, s'⟩
  · rw [hr] at h; exact h
  · rw [hr] at h; exact hf b s' h

theorem catchIf {p : ε → Bool} {h : Prog σ ε α} (hm : Triple P m Q fun e s => if p e then R s else E e s)
    (hh : Triple R h Q E) :
    Triple P (Prog.catchIf p m h) Q E := by
  intro s hs
  have hms := hm s hs
  unfold Prog.catchIf
  rcases hr : m s with ⟨e | a, s'⟩
  · rw [hr] at hms
    dsimp only at hms ⊢
    split_ifs with hp
    · rw [if_pos hp] at hms; exact hh s' hms
    · rw [if_neg hp] at hms; exact hms
  · rw [hr] at hms; exact hms

theorem conseq (h : Triple P' m Q' E) (hP : ∀ s, P s → P' s) (hQ : ∀ a s, Q' a s → Q a s) : Triple P m Q E := by
  intro s hs
  have := h s (hP s hs)
  rcases hr : m s with ⟨e | a, s'⟩
  · rw [hr] at this; exact this
  · rw [hr] at this; exact hQ a s' this

theorem conseq_error {E' : ε → σ → Prop} (h : Triple P m Q E') (hE : ∀ e s, E' e s → E e s) : Triple P m Q E := by
  intro s hs
  have := h s hs
  rcases hr : m s with ⟨e | a, s'⟩
  · rw [hr] at this; exact hE e s' this
  · rw [hr] at this; exact this

/-- A precondition may be opened. -/
theorem exists_pre {ι : Sort*} {P : ι → σ → Prop} (h : ∀ i, Triple (P i) m Q E) :
    Triple (fun s => ∃ i, P i s) m Q E := fun s ⟨i, hi⟩ => h i s hi

/-- A fact of the precondition that does not depend on the state may be assumed. -/
theorem fact_pre {φ : Prop} (h : φ → Triple P m Q E) : Triple (fun s => φ ∧ P s) m Q E :=
  fun s ⟨hφ, hs⟩ => h hφ s hs

/-- What follows a program that returns `b`. -/
theorem bind_eq {m : Prog σ ε β} {b : β}
    (hm : Triple P m (fun b' s => b' = b ∧ R s) E) (hf : Triple R (f b) Q E) : Triple P (m >>= f) Q E :=
  bind hm fun _ => fact_pre fun h => h ▸ hf

/-- **The loop rule**: an invariant `I` that tells, besides the accumulator, what of the list was done so far. -/
theorem foldlM {I : List β → γ → σ → Prop} {f : γ → β → Prog σ ε γ} : ∀ (l done : List β) (g : γ),
      (∀ pre x post g, done ++ l = pre ++ x :: post → Triple (I pre g) (f g x) (I (pre ++ [x])) E) →
      Triple (I done g) (l.foldlM f g) (I (done ++ l)) E
  | [], done, g, _ => by
    rw [List.append_nil]
    exact Triple.pure fun s hs => hs
  | x :: l, done, g, hf => by
    rw [List.foldlM_cons]
    refine Triple.bind (hf done x l g rfl) fun g' => ?_
    have hrest := foldlM l (done ++ [x]) g' fun pre y post g'' h => hf pre y post g'' (by simpa using h)
    simpa using hrest

end Triple

end Prog

end ZClone.Lib
