import Mathlib.Algebra.Ring.Nat

/-!
# Loops

A loop is a step that either goes on with a new state or ends with a result.  It runs with a
bound on the number of steps, and has no result if the bound is too small.

## Main definitions

* `run step n s` — the result of the loop from `s`, if it ends within `n` steps.
* `run_of_rank` — a loop whose rank goes down ends, and keeps its invariant to the end.
-/

namespace Repeat

variable {σ ρ : Type}

/-- The result of the loop from `s`, if it ends within the given number of steps. -/
def run (step : σ → σ ⊕ ρ) : ℕ → σ → Option ρ
  | 0, _ => none
  | n + 1, s =>
    match step s with
    | .inl s' => run step n s'
    | .inr r => some r

variable {step : σ → σ ⊕ ρ} {n : ℕ} {s : σ}

/-- **The loop rule.**  If each step keeps `I` at a smaller rank, or ends with `Q`, then the loop
ends with `Q`. -/
theorem run_of_rank {m : ℕ} (I : ℕ → σ → Prop) (Q : ρ → Prop)
    (hstep : ∀ m s, I m s → (∃ s', step s = .inl s' ∧ ∃ m' < m, I m' s') ∨
      ∃ r, step s = .inr r ∧ Q r) (hs : I m s) (hn : m < n) :
    ∃ r, run step n s = some r ∧ Q r := by
  induction n generalizing m s with
  | zero => exact absurd hn (Nat.not_lt_zero _)
  | succ n ih =>
    rw [run]
    obtain ⟨s', h, m', hm, hI⟩ | ⟨r, h, hQ⟩ := hstep m s hs
    · rw [h]
      exact ih hI (by omega)
    · rw [h]
      exact ⟨r, rfl, hQ⟩

/-- The loop rule with a measure of the state. -/
theorem run_of_measure (I : σ → Prop) (μ : σ → ℕ) (Q : ρ → Prop)
    (hstep : ∀ s, I s → (∃ s', step s = .inl s' ∧ I s' ∧ μ s' < μ s) ∨ ∃ r, step s = .inr r ∧ Q r)
    (hs : I s) (hn : μ s < n) : ∃ r, run step n s = some r ∧ Q r := by
  refine run_of_rank (fun m s => I s ∧ μ s = m) Q ?_ ⟨hs, rfl⟩ hn
  rintro m s ⟨hI, rfl⟩
  exact (hstep s hI).imp_left fun ⟨s', h, hI', hμ⟩ => ⟨s', h, _, hμ, hI', rfl⟩

end Repeat
