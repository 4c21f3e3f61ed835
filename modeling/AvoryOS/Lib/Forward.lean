import Mathlib.Algebra.Ring.Nat
import Mathlib.Tactic.Common

/-!
# Facts pushed along forward edges

One pass over numbered positions computes a fact for each position that a path reaches.
Position `i` sends facts to later positions; a position that receives several facts keeps
a bound of all of them.  Since nothing is sent backwards, the fact of a position is final
when its turn comes, and the result of the pass is closed under sending.

## Main definitions

* `push` — a position receives a fact.
* `pass` — the pass over the positions below `n`; it fails if a position does.
* `pass_closed` — the result bounds every fact that is sent under it.
-/

namespace Forward

open Function Option
variable {F : Type*} (meet : F → F → F)

def push (st : ℕ → Option F) (e : ℕ × F) : ℕ → Option F :=
  update st e.1 (some ((st e.1).elim e.2 fun f => meet f e.2))

/-- The positions below `n` in order.  `send i` is given the fact of position `i`, or `none` if
no path reaches it. -/
def pass (send : ℕ → Option F → Option (List (ℕ × F))) : ℕ → (ℕ → Option F) → Option (ℕ → Option F)
  | 0, st => some st
  | n + 1, st => (pass send n st).bind fun st => (send n (st n)).map (·.foldl (push meet) st)

/-- A relation in which `meet` gives lower bounds. -/
structure Bounds (le : F → F → Prop) : Prop where
  refl : ∀ f, le f f
  trans : ∀ {f g h}, le f g → le g h → le f h
  left : ∀ f g, le (meet f g) f
  right : ∀ f g, le (meet f g) g

/-- Every fact of the first table is bounded by the second. -/
def Below (le : F → F → Prop) (st st' : ℕ → Option F) : Prop :=
  ∀ i f, st i = some f → ∃ g, st' i = some g ∧ le g f

variable {meet} {le : F → F → Prop} {st st' : ℕ → Option F}

section

variable (h : Bounds meet le)
include h

theorem Below.refl (st : ℕ → Option F) : Below le st st :=
  fun _ f hf => ⟨f, hf, h.refl f⟩

theorem Below.trans {st'' : ℕ → Option F} (h1 : Below le st st')
    (h2 : Below le st' st'') : Below le st st'' := by
  intro i f hf
  obtain ⟨g, hg, hgf⟩ := h1 i f hf
  obtain ⟨k, hk, hkg⟩ := h2 i g hg
  exact ⟨k, hk, h.trans hkg hgf⟩

theorem push_below (st : ℕ → Option F) (e : ℕ × F) : Below le st (push meet st e) := by
  intro i f hf
  by_cases hi : i = e.1
  · subst hi
    exact ⟨meet f e.2, by simp [push, hf], h.left f e.2⟩
  · exact ⟨f, by simp [push, update_of_ne hi, hf], h.refl f⟩

theorem push_received (st : ℕ → Option F) (e : ℕ × F) :
    ∃ g, push meet st e e.1 = some g ∧ le g e.2 := by
  cases hf : st e.1 with
  | none => exact ⟨e.2, by simp [push, hf], h.refl e.2⟩
  | some f => exact ⟨meet f e.2, by simp [push, hf], h.right f e.2⟩

theorem foldl_push_below (es : List (ℕ × F)) (st : ℕ → Option F) :
    Below le st (es.foldl (push meet) st) := by
  induction es generalizing st with
  | nil => exact .refl h st
  | cons e es ih => exact (push_below h st e).trans h (ih _)

theorem foldl_push_received {es : List (ℕ × F)} {e : ℕ × F} (he : e ∈ es)
    (st : ℕ → Option F) : ∃ g, es.foldl (push meet) st e.1 = some g ∧ le g e.2 := by
  induction es generalizing st with
  | nil => simp at he
  | cons d es ih =>
    rcases List.mem_cons.mp he with rfl | he
    · obtain ⟨g, hg, hge⟩ := push_received h st e
      obtain ⟨k, hk, hkg⟩ := foldl_push_below h es (push meet st e) e.1 g hg
      exact ⟨k, hk, h.trans hkg hge⟩
    · exact ih he _

end

/-- A position that is not among the receivers keeps its fact. -/
theorem foldl_push_other {es : List (ℕ × F)} {i : ℕ} (hi : ∀ e ∈ es, e.1 ≠ i) (st : ℕ → Option F) :
    es.foldl (push meet) st i = st i := by
  induction es generalizing st with
  | nil => rfl
  | cons e es ih =>
    rw [List.foldl_cons, ih fun d hd => hi d (List.mem_cons_of_mem e hd), push,
      update_of_ne (hi e List.mem_cons_self).symm]

section Pass
variable {send : ℕ → Option F → Option (List (ℕ × F))} {n : ℕ}

theorem pass_below (h : Bounds meet le) (hp : pass meet send n st = some st') :
    Below le st st' := by
  induction n generalizing st' with
  | zero => exact some.inj hp ▸ .refl h st
  | succ n ih =>
    obtain ⟨st1, h1, h2⟩ := bind_eq_some_iff.mp hp
    obtain ⟨es, -, rfl⟩ := map_eq_some_iff.mp h2
    exact (ih h1).trans h (foldl_push_below h es st1)

/-- **The result is closed under sending**: every position has been asked with its final fact,
and what it sent is bounded by the facts of the receivers. -/
theorem pass_closed (h : Bounds meet le) (hfwd : ∀ i o es, send i o = some es → ∀ e ∈ es, i < e.1)
    (hp : pass meet send n st = some st') {i : ℕ} (hi : i < n) :
    ∃ es, send i (st' i) = some es ∧ ∀ e ∈ es, ∃ g, st' e.1 = some g ∧ le g e.2 := by
  induction n generalizing st' with
  | zero => exact absurd hi (Nat.not_lt_zero i)
  | succ n ih =>
    obtain ⟨st1, h1, h2⟩ := bind_eq_some_iff.mp hp
    obtain ⟨es, hes, rfl⟩ := map_eq_some_iff.mp h2
    -- position `n` sends only to later ones, so the facts up to `n` stay
    have hold : ∀ j, j ≤ n → es.foldl (push meet) st1 j = st1 j := fun j hj =>
      foldl_push_other (fun e he => Nat.ne_of_gt (Nat.lt_of_le_of_lt hj (hfwd n _ es hes e he))) st1
    rw [hold i (Nat.le_of_lt_succ hi)]
    rcases Nat.lt_succ_iff_lt_or_eq.mp hi with hlt | rfl
    · obtain ⟨ds, hds, hg⟩ := ih h1 hlt
      refine ⟨ds, hds, fun e he => ?_⟩
      obtain ⟨g, hg1, hg2⟩ := hg e he
      obtain ⟨k, hk, hkg⟩ := foldl_push_below h es st1 e.1 g hg1
      exact ⟨k, hk, h.trans hkg hg2⟩
    · exact ⟨es, hes, fun e he => foldl_push_received h he st1⟩

end Pass

end Forward
