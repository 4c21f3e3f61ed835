import Mathlib.Data.Set.Card

/-!
# Counted references

Objects with a count of references, and holders that each have a reference on at most one object.
The count is exact when it is the number of holders; a holder that comes or goes with its count
keeps it so.

## Main definitions

* `Counted held ref` — the count of each object is the number of its holders.
-/

namespace Holders

open Function

variable {H F : Type*} {held : H → Option F} {ref : F → ℕ}
  {h h' : H} {f : F}

/-- The count of each object is the number of its holders. -/
def Counted (held : H → Option F) (ref : F → ℕ) : Prop :=
  ∀ f, {h | held h = some f}.encard = ref f

namespace Counted

theorem holder_eq (hc : Counted held ref) (hf : ref f = 1) (hh : held h = some f)
    (hh' : held h' = some f) : h = h' :=
  Set.encard_le_one_iff.mp (by rw [hc f, hf]; rfl) h h' hh hh'

theorem ref_eq_zero_iff (hc : Counted held ref) (f : F) : ref f = 0 ↔ ∀ h, held h ≠ some f := by
  rw [← Nat.cast_eq_zero (R := ℕ∞), ← hc f, Set.encard_eq_zero, Set.eq_empty_iff_forall_notMem]
  rfl

variable [DecidableEq H] [DecidableEq F]

theorem take (hc : Counted held ref) (hh : held h = none) (f : F) :
    Counted (update held h (some f)) (update ref f (ref f + 1)) := by
  intro g
  simp only [update_apply]
  by_cases hg : g = f
  · have hset : {x | (if x = h then some f else held x) = some f} =
        insert h {x | held x = some f} := by
      ext x
      grind
    rw [hg, hset, Set.encard_insert_of_notMem (by simp [hh]), hc f]
    simp
  · rw [if_neg hg, ← hc g]
    grind

theorem put (hc : Counted held ref) (hf : held h = some f) :
    Counted (update held h none) (update ref f (ref f - 1)) := by
  intro g
  simp only [update_apply]
  by_cases hg : g = f
  · have hset : {x | (if x = h then none else held x) = some f} =
        {x | held x = some f} \ {h} := by
      grind
    rw [hg, hset, Set.encard_sdiff_singleton_of_mem (by exact hf), hc f]
    simp
  · rw [if_neg hg, ← hc g]
    grind

end Counted

end Holders
