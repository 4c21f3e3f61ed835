import AvoryOS.Lib.Bytes
import Mathlib.Data.List.Basic

/-!
# Arrays of fixed-size records

A `Codec` says how a value is stored in `size` bytes of an image.  An array of values is
stored one after another; `getAll_putAll` is the round trip.

## Main definitions

* `Codec` — how one value is stored, with the laws that make it one.
* `Codec.putAll`, `Codec.getAll` — an array of values.
-/

namespace Bytes

/-- How a value is stored in `size` bytes. -/
structure Codec (β : Type*) where
  size : ℕ
  put : Image → ℕ → β → Image
  get : Image → ℕ → β
  Valid : β → Prop
  get_put : ∀ (b : Image) (o : ℕ) (x : β), Valid x → get (put b o x) o = x
  put_other : ∀ (b : Image) (o : ℕ) (x : β) (i : ℕ), i < o ∨ o + size ≤ i → put b o x i = b i
  get_congr : ∀ (a b : Image) (o : ℕ), (∀ i, o ≤ i → i < o + size → a i = b i) → get a o = get b o

namespace Codec

variable {β : Type*} (c : Codec β)

/-- Store values one after another, from offset `o` on. -/
def putAll (b : Image) (o : ℕ) : List β → Image
  | [] => b
  | x :: xs => putAll (c.put b o x) (o + c.size) xs

def getAll (b : Image) : ℕ → ℕ → List β
  | _, 0 => []
  | o, n + 1 => c.get b o :: getAll b (o + c.size) n

theorem putAll_other {i : ℕ} {xs : List β} :
    ∀ {b : Image} {o : ℕ}, i < o ∨ o + c.size * xs.length ≤ i → c.putAll b o xs i = b i := by
  induction xs with
  | nil => intro b o _; rfl
  | cons x xs ih =>
    intro b o h
    rw [List.length_cons, Nat.mul_succ] at h
    rw [putAll, ih (by omega), c.put_other _ _ _ _ (by omega)]

/-- **The round trip of an array.** -/
theorem getAll_putAll {xs : List β} (h : ∀ x ∈ xs, c.Valid x) :
    ∀ (b : Image) (o : ℕ), c.getAll (c.putAll b o xs) o xs.length = xs := by
  induction xs with
  | nil => intro b o; rfl
  | cons x xs ih =>
    intro b o
    have hhead : c.get (c.putAll (c.put b o x) (o + c.size) xs) o = x := by
      rw [← c.get_put b o x (h x List.mem_cons_self)]
      apply c.get_congr
      intro i _ hi
      rw [c.putAll_other (.inl hi), c.get_put b o x (h x List.mem_cons_self)]
    rw [List.length_cons, putAll, getAll, hhead, ih fun y hy => h y (List.mem_cons_of_mem _ hy)]

end Codec

end Bytes
