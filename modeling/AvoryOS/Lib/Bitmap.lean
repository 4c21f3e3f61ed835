import AvoryOS.Lib.Bytes
import Mathlib.Data.Finset.Card
import Mathlib.Tactic.IntervalCases

/-!
# Bitmaps stored in byte images

Bit `i` of a bitmap is bit `i % 8` of byte `i / 8`.  A set bit marks an item in use, so the
free items among the first `n` are the clear bits, counted by `freeCount`.

## Main definitions

* `test`, `set`, `clear` — read and change one bit.
* `findFree`, `runLength` — the first clear bit of a window, and how many follow it.
* `freeCount` — the number of clear bits.
-/

namespace Bitmap

open Bytes Function Finset Nat

def mask (i : ℕ) : UInt8 := 1 <<< UInt8.ofNat (i % 8)

def test (b : Image) (i : ℕ) : Bool := b (i / 8) &&& mask i != 0

def set (b : Image) (i : ℕ) : Image := update b (i / 8) (b (i / 8) ||| mask i)

def clear (b : Image) (i : ℕ) : Image := update b (i / 8) (b (i / 8) &&& ~~~(mask i))

theorem toBitVec_mask (i : ℕ) : (mask i).toBitVec = BitVec.twoPow 8 (i % 8) := by
  have hlt : i % 8 < 8 := mod_lt i (by decide)
  rw [mask]
  generalize i % 8 = k at hlt
  interval_cases k <;> rfl

theorem twoPow_ne_zero {k : ℕ} (hk : k < 8) : BitVec.twoPow 8 k ≠ 0#8 := by
  interval_cases k <;> decide

theorem test_eq (b : Image) (i : ℕ) : test b i = (b (i / 8)).toBitVec.getLsbD (i % 8) := by
  have hne := twoPow_ne_zero (mod_lt i (by decide : 8 > 0))
  have hzero : (b (i / 8) &&& mask i = 0) ↔ (b (i / 8)).toBitVec.getLsbD (i % 8) = false := by
    rw [← UInt8.toBitVec_inj, UInt8.toBitVec_and, toBitVec_mask, BitVec.and_twoPow]
    cases (b (i / 8)).toBitVec.getLsbD (i % 8) with
    | false => simp
    | true => simpa using hne
  cases hbit : (b (i / 8)).toBitVec.getLsbD (i % 8) with
  | false => simp [test, hzero.mpr hbit]
  | true =>
    have hmask : ¬ (b (i / 8) &&& mask i = 0) := by simp [hzero, hbit]
    simpa [test] using hmask

variable {i : ℕ}

theorem eq_of_div_mod {j : ℕ} (hdiv : i / 8 = j / 8) (hmod : i % 8 = j % 8) : i = j := by
  omega

theorem test_set (b : Image) (i j : ℕ) : test (set b i) j = (decide (j = i) || test b j) := by
  rw [test_eq, test_eq, set]
  by_cases hdiv : j / 8 = i / 8
  · rw [hdiv, update_self, UInt8.toBitVec_or, toBitVec_mask]
    by_cases hmod : j % 8 = i % 8
    · simp [eq_of_div_mod hdiv hmod, mod_lt i (by decide : 8 > 0)]
    · have hne : j ≠ i := fun h => hmod (by rw [h])
      simp [hne, Ne.symm hmod]
  · have hne : j ≠ i := fun h => hdiv (by rw [h])
    simp [hdiv, hne]

theorem test_clear (b : Image) (i j : ℕ) : test (clear b i) j = (decide (j ≠ i) && test b j) := by
  rw [test_eq, test_eq, clear]
  have hlt : j % 8 < 8 := mod_lt j (by decide)
  by_cases hdiv : j / 8 = i / 8
  · rw [hdiv, update_self, UInt8.toBitVec_and, UInt8.toBitVec_not, toBitVec_mask,
      BitVec.getLsbD_and, BitVec.getLsbD_not, BitVec.getLsbD_twoPow]
    by_cases hmod : j % 8 = i % 8
    · simp [eq_of_div_mod hdiv hmod]
    · have hne : j ≠ i := fun h => hmod (by rw [h])
      simp [hne, Ne.symm hmod, hlt]
  · have hne : j ≠ i := fun h => hdiv (by rw [h])
    simp [hdiv, hne]

variable {b : Image} {n : ℕ}

theorem test_congr {a : Image} (h : SameBytes n a b) (hi : i < 8 * n) : test a i = test b i := by
  rw [test, test, h (i / 8) (by omega)]

/-! ## Counting the clear bits -/

/-- The number of clear bits among the first `n`. -/
def freeCount (b : Image) (n : ℕ) : ℕ := ((range n).filter fun i => test b i = false).card

theorem freeCount_congr {a : Image} (h : ∀ i < n, test a i = test b i) :
    freeCount a n = freeCount b n := by
  rw [freeCount]
  congr 1
  apply filter_congr
  intro i hi
  rw [h i (mem_range.mp hi)]

theorem freeCount_set (hi : i < n) (hfree : test b i = false) :
    freeCount (set b i) n + 1 = freeCount b n := by
  have hmem : i ∈ (range n).filter fun j => test b j = false := by
    rw [mem_filter, mem_range]
    exact ⟨hi, hfree⟩
  have herase : ((range n).filter fun j => test (set b i) j = false) =
      ((range n).filter fun j => test b j = false).erase i := by
    ext j
    rw [mem_filter, test_set]
    by_cases hj : j = i
    · simp [hj]
    · simp [hj]
  rw [freeCount, herase, card_erase_of_mem hmem]
  exact Nat.sub_add_cancel (card_pos.mpr ⟨i, hmem⟩)

theorem freeCount_clear (hi : i < n) (hused : test b i = true) :
    freeCount (clear b i) n = freeCount b n + 1 := by
  have hnot : i ∉ (range n).filter fun j => test b j = false := by
    rw [mem_filter, hused]
    simp
  have hinsert : ((range n).filter fun j => test (clear b i) j = false) =
      insert i ((range n).filter fun j => test b j = false) := by
    ext j
    rw [mem_filter, test_clear]
    by_cases hj : j = i
    · simp [hj, hi]
    · simp [hj]
  rw [freeCount, hinsert, card_insert_of_notMem hnot, freeCount]

theorem freeCount_clear_le (b : Image) (i n : ℕ) : freeCount (clear b i) n ≤ freeCount b n + 1 := by
  by_cases hi : i < n ∧ test b i = true
  · exact (freeCount_clear hi.1 hi.2).le
  have hsame : freeCount (clear b i) n = freeCount b n := by
    apply freeCount_congr
    intro j hj
    rw [test_clear]
    by_cases hji : j = i
    · subst hji
      have hclear : test b j = false := by simpa [hj] using hi
      simp [hclear]
    · simp [hji]
  omega

/-! ## Runs of clear bits -/

/-- The first clear bit of the window from `lo` up to `hi`. -/
def findFree (b : Image) (lo hi : ℕ) : Option ℕ :=
  (List.range' lo (hi - lo)).find? fun i => !test b i

/-- How many bits from `j` on are clear, below `hi` and up to a limit. -/
def extendRun (b : Image) (hi : ℕ) : ℕ → ℕ → ℕ
  | 0, _ => 0
  | limit + 1, j => if j < hi ∧ test b j = false then extendRun b hi limit (j + 1) + 1 else 0

/-- The length of the run of clear bits that starts with `i`. -/
def runLength (b : Image) (hi limit i : ℕ) : ℕ := extendRun b hi (limit - 1) (i + 1) + 1

def setRun (b : Image) (i : ℕ) : ℕ → Image
  | 0 => b
  | n + 1 => set (setRun b i n) (i + n)

variable {hi : ℕ}

theorem findFree_eq_some {lo : ℕ} (h : findFree b lo hi = some i) :
    lo ≤ i ∧ i < hi ∧ test b i = false := by
  have hmem := List.mem_of_find?_eq_some h
  have hfree := List.find?_some h
  rw [List.mem_range'_1] at hmem
  exact ⟨hmem.1, by omega, by simpa using hfree⟩

theorem test_extendRun :
    ∀ {limit j k : ℕ}, k < extendRun b hi limit j → j + k < hi ∧ test b (j + k) = false := by
  intro limit
  induction limit with
  | zero => intro j k hk; exact absurd hk (not_lt_zero k)
  | succ limit ih =>
    intro j k hk
    rw [extendRun] at hk
    split at hk
    · rename_i hj
      cases k with
      | zero => exact hj
      | succ k =>
        have hrest := ih (lt_of_succ_lt_succ hk)
        rwa [add_right_comm] at hrest
    · exact absurd hk (not_lt_zero k)

theorem test_runLength {limit k : ℕ} (hfree : test b i = false) (hlt : i < hi)
    (hk : k < runLength b hi limit i) : i + k < hi ∧ test b (i + k) = false := by
  cases k with
  | zero => exact ⟨hlt, hfree⟩
  | succ k =>
    have hrest := test_extendRun (lt_of_succ_lt_succ hk)
    rwa [add_right_comm] at hrest

theorem extendRun_le (b : Image) (hi limit j : ℕ) : extendRun b hi limit j ≤ limit := by
  induction limit generalizing j with
  | zero => exact le_rfl
  | succ limit ih =>
    rw [extendRun]
    split
    · exact succ_le_succ (ih _)
    · exact Nat.zero_le _

theorem runLength_le {limit : ℕ} (hpos : 0 < limit) : runLength b hi limit i ≤ limit := by
  have hle := extendRun_le b hi (limit - 1) (i + 1)
  rw [runLength]
  omega

theorem test_setRun (b : Image) (i n j : ℕ) :
    test (setRun b i n) j = (decide (i ≤ j ∧ j < i + n) || test b j) := by
  induction n with
  | zero => simp [setRun]
  | succ n ih =>
    rw [setRun, test_set, ih]
    by_cases hj : j = i + n
    · simp [hj]
    · have hiff : (i ≤ j ∧ j < i + (n + 1)) ↔ (i ≤ j ∧ j < i + n) := by omega
      simp [hj, hiff]

theorem freeCount_setRun {c : ℕ} (hle : i + c ≤ n)
    (hfree : ∀ k < c, test b (i + k) = false) : freeCount (setRun b i c) n + c = freeCount b n := by
  induction c with
  | zero => rfl
  | succ c ih =>
    have hbit : test (setRun b i c) (i + c) = false := by
      simp [test_setRun, hfree c (lt_succ_self c)]
    have hset := freeCount_set (n := n) (by omega) hbit
    have hrest := ih (by omega) fun k hk => hfree k (by omega)
    rw [setRun]
    omega

end Bitmap
