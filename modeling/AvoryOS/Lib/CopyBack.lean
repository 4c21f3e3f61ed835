import Mathlib.Data.List.Basic

/-!
# Copying from what has been written

A back reference appends elements to a list, each the one `d` places before the end.  If
`d` is smaller than the number of elements, the copy reads what it has written itself, so
it is done one element at a time.

## Main definitions

* `copyBack d n out` — append `n` elements.
* `copyBack_take` — a part of a list that repeats with period `d` is rebuilt.
-/

namespace CopyBack
variable {α : Type*}

/-- Append `n` elements, each the one `d` places before the end. -/
def copyBack (d : ℕ) : ℕ → List α → List α
  | 0, out => out
  | n + 1, out => copyBack d n (out ++ (out[out.length - d]?).toList)

theorem copyBack_succ (d n : ℕ) (out : List α) :
    copyBack d (n + 1) out =
      copyBack d n out ++ ((copyBack d n out)[(copyBack d n out).length - d]?).toList := by
  induction n generalizing out with
  | zero => rfl
  | succ n ih => rw [copyBack, ih, copyBack]

/-- If elements `p` to `p + n` repeat those `d` places before, a copy of the first `p` elements
grows into one of the first `p + n`. -/
theorem copyBack_take {l : List α} {d p n : ℕ} (hd : 0 < d) (hp : d ≤ p) (hn : p + n ≤ l.length)
    (hrep : ∀ i, i < n → l[p + i]? = l[p + i - d]?) : copyBack d n (l.take p) = l.take (p + n) := by
  induction n generalizing p with
  | zero => rfl
  | succ n ih =>
    have hlen : (l.take p).length = p := by
      rw [List.length_take]
      omega
    have hget : (l.take p)[p - d]? = l[p]? := by
      rw [List.getElem?_take_of_lt (by omega)]
      exact (hrep 0 (Nat.succ_pos n)).symm
    rw [copyBack, hlen, hget, ← List.take_add_one, ih (by omega) (by omega) fun i hi => ?_]
    · rw [Nat.add_assoc, Nat.add_comm 1]
    · have := hrep (i + 1) (by omega)
      rwa [show p + (i + 1) = p + 1 + i by omega] at this

end CopyBack
