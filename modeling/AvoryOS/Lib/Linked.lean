import Mathlib.Data.List.Nodup

/-!
# Lists threaded through a table

A list of numbers is threaded through a table if each entry names the next one, and `0` ends
the list.

## Main definitions

* `Chain next h l` — the list from `h` is `l`.
* `Chain.pop`, `Chain.push` — the first entry is taken off, and put on.
-/

namespace Linked

/-- The list from `h` is `l`. -/
def Chain (next : ℕ → ℕ) : ℕ → List ℕ → Prop
  | h, [] => h = 0
  | h, x :: l => h = x ∧ x ≠ 0 ∧ Chain next (next x) l

variable {next next' : ℕ → ℕ} {h : ℕ} {l : List ℕ}

theorem Chain.congr (hl : Chain next h l) (hn : ∀ x ∈ l, next' x = next x) :
    Chain next' h l := by
  induction l generalizing h with
  | nil => exact hl
  | cons x l ih =>
    obtain ⟨h1, h2, h3⟩ := hl
    refine ⟨h1, h2, ?_⟩
    rw [hn x List.mem_cons_self]
    exact ih h3 fun y hy => hn y (List.mem_cons_of_mem x hy)

theorem Chain.pop (hl : Chain next h l) (h0 : h ≠ 0) :
    ∃ l', l = h :: l' ∧ Chain next (next h) l' := by
  cases l with
  | nil => exact absurd hl h0
  | cons x l =>
    obtain ⟨rfl, -, h3⟩ := hl
    exact ⟨l, rfl, h3⟩

theorem Chain.push (hl : Chain next h l) {x : ℕ} (hx : x ≠ 0) (hm : x ∉ l)
    (hn : ∀ y, y ≠ x → next' y = next y) (hnx : next' x = h) : Chain next' x (x :: l) := by
  refine ⟨rfl, hx, ?_⟩
  rw [hnx]
  exact hl.congr fun y hy => hn y fun e => hm (e ▸ hy)

end Linked
