import Mathlib.Logic.Relation
import Mathlib.Order.Basic

/-!
# Runs of a step relation

A run is a chain of steps (`Relation.ReflTransGen`). The rules about runs:

- `invariant`: what holds at the start and is kept by every step holds all along.
- `exists_end`: if from every state that is not an end some step lowers a measure, an end can be reached.
- `eventually_const`: a measure that is not raised any more settles.
- `of_foldlM`: where a step is a function of the state and an action, a list of actions that can be taken is a run.
-/

namespace ZClone.Run

open Relation

variable {σ : Type*} {step : σ → σ → Prop}

theorem invariant {inv : σ → Prop} (hstep : ∀ s s', inv s → step s s' → inv s') {s s' : σ}
    (hrun : ReflTransGen step s s') (h : inv s) : inv s' := by
  induction hrun with
  | refl => exact h
  | tail _ hlast ih => exact hstep _ _ ih hlast

theorem exists_end {inv ended : σ → Prop} (measure : σ → Nat)
    (hprogress : ∀ s, inv s → ¬ ended s → ∃ s', step s s' ∧ inv s' ∧ measure s' < measure s) (s : σ) (h : inv s) :
    ∃ s', ReflTransGen step s s' ∧ inv s' ∧ ended s' := by
  induction hn : measure s using Nat.strongRecOn generalizing s with
  | _ n ih =>
    by_cases hend : ended s
    · exact ⟨s, .refl, h, hend⟩
    · obtain ⟨s₁, hfirst, h₁, hlt⟩ := hprogress s h hend
      obtain ⟨s', hrun, h', hend'⟩ := ih (measure s₁) (hn ▸ hlt) s₁ h₁ rfl
      exact ⟨s', .head hfirst hrun, h', hend'⟩

/-- A measure that no step raises from some point on is constant in the end. -/
theorem eventually_const {f : Nat → Nat} {n : Nat} (h : ∀ m, n ≤ m → f (m + 1) ≤ f m) :
    ∃ k, n ≤ k ∧ ∀ m, k ≤ m → f m = f k := by
  induction hf : f n using Nat.strongRecOn generalizing n with
  | _ v ih =>
    by_cases hdrop : ∃ m, n ≤ m ∧ f m < f n
    · obtain ⟨m, hm, hlt⟩ := hdrop
      obtain ⟨k, hk, hconst⟩ := ih (f m) (hf ▸ hlt) (fun i hi => h i (Nat.le_trans hm hi)) rfl
      exact ⟨k, Nat.le_trans hm hk, hconst⟩
    · refine ⟨n, Nat.le_refl n, fun m hm => ?_⟩
      have hle : f m ≤ f n := by
        clear hdrop
        induction hm with
        | refl => exact Nat.le_refl _
        | step hi hle => exact Nat.le_trans (h _ hi) hle
      exact Nat.le_antisymm hle (Nat.not_lt.mp fun hlt => hdrop ⟨m, hm, hlt⟩)

theorem of_foldlM {α : Type*} {next : σ → α → Option σ} {actions : List α} {s s' : σ}
    (h : actions.foldlM next s = some s') :
    ReflTransGen (fun s s' => ∃ a, next s a = some s') s s' := by
  induction actions generalizing s with
  | nil =>
    cases h
    exact .refl
  | cons a actions ih =>
    rw [List.foldlM_cons] at h
    obtain ⟨s₁, hfirst, hrest⟩ := Option.bind_eq_some_iff.mp h
    exact .head ⟨a, hfirst⟩ (ih hrest)

end ZClone.Run
