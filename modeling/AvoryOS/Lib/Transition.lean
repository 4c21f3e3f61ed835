import Mathlib.Algebra.Ring.Nat
import Mathlib.Logic.Function.Basic

/-!
# Runs of a transition function

A system takes one event after another; an event that cannot happen in a state has no successor.
A condition on events is met along a run when each event meets it in the state it happens in.

## Main definitions

* `run step s es` — the state after the events `es`.
* `Along step ok s es` — each event of the run meets `ok`.
* `run_invariant` — what every step keeps, every run keeps.
-/

attribute [grind =] Function.update_apply

namespace Transition

universe u v

variable {σ : Type u} {ε : Type v}

/-- The state after a list of events, if each of them can happen in its turn. -/
def run (step : σ → ε → Option σ) : σ → List ε → Option σ
  | s, [] => some s
  | s, e :: es =>
    match step s e with
    | none => none
    | some s' => run step s' es

/-- Each event of the run meets `ok` in the state it happens in. -/
def Along (step : σ → ε → Option σ) (ok : σ → ε → Prop) : σ → List ε → Prop
  | _, [] => True
  | s, e :: es =>
    ok s e ∧ match step s e with
      | none => True
      | some s' => Along step ok s' es

instance decidableAlong (step : σ → ε → Option σ) (ok : σ → ε → Prop)
    [∀ s e, Decidable (ok s e)] : ∀ s es, Decidable (Along step ok s es)
  | _, [] => isTrue trivial
  | s, e :: es =>
    let rest : (o : Option σ) → Decidable (match o with
        | none => True
        | some s' => Along step ok s' es)
      | none => isTrue trivial
      | some s' => decidableAlong step ok s' es
    have := rest (step s e)
    inferInstanceAs (Decidable (ok s e ∧ _))

variable {step : σ → ε → Option σ} {ok : σ → ε → Prop} {s s' : σ} {e : ε} {es : List ε}

theorem guard_eq_some {p : Prop} [Decidable p] {t : σ} :
    (if p then some t else none) = some s' ↔ p ∧ t = s' := by
  rw [Option.ite_none_right_eq_some, Option.some.injEq]

@[simp] theorem run_nil : run step s [] = some s := rfl

theorem run_cons : run step s (e :: es) = (step s e).bind fun t => run step t es := by
  rw [run]
  cases step s e <;> rfl

@[simp] theorem along_nil : Along step ok s [] := trivial

theorem Along.head (h : Along step ok s (e :: es)) : ok s e := h.1

theorem Along.tail (h : Along step ok s (e :: es)) (he : step s e = some s') :
    Along step ok s' es := by
  have := h.2
  rwa [he] at this

/-- **The invariant rule.**  What every step that meets `ok` keeps, every run of such steps
keeps. -/
theorem run_invariant (I : σ → Prop) (hstep : ∀ s e s', I s → ok s e → step s e = some s' → I s')
    (h0 : I s) (hok : Along step ok s es) (hr : run step s es = some s') : I s' := by
  induction es generalizing s with
  | nil =>
    cases hr
    exact h0
  | cons e es ih =>
    rw [run_cons] at hr
    cases he : step s e with
    | none => simp [he] at hr
    | some t =>
      rw [he] at hr
      exact ih (hstep s e t h0 hok.head he) (hok.tail he) hr

/-- A run goes to its end exactly when each event meets the condition under which it can happen. -/
theorem run_isSome_iff (I : σ → Prop) (hstep : ∀ s e s', I s → step s e = some s' → I s')
    (hok : ∀ s e, I s → ((step s e).isSome ↔ ok s e)) (h0 : I s) :
    (run step s es).isSome ↔ Along step ok s es := by
  induction es generalizing s with
  | nil => simp
  | cons e es ih =>
    rw [run_cons, Along, ← hok s e h0]
    cases he : step s e with
    | none => simp
    | some t => simp [ih (hstep s e t h0 he)]

end Transition
