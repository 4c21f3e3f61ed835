import Mathlib.Algebra.Order.Ring.Nat
import Mathlib.Tactic.Ring

/-!
# Byte images and the fixed-width numbers stored in them

An `Image` is the contents of a buffer, one byte per offset.  A number occupies
`n` consecutive bytes, either most significant first (`getBe`, `putBe`) or least
significant first (`getLe`, `putLe`).

A store is a total function on offsets, so a field access never needs a bounds
proof; the length of a buffer is a matter for the code that walks it.  Two images
are the same buffer of `n` bytes when they agree below `n`, which is `SameBytes`.

## Main definitions

* `Image` — a byte at every offset.
* `getBe`, `putBe`, `getLe`, `putLe` — read and write an `n`-byte number.
* `SameBytes n a b` — a comparison of the first `n` bytes, decidable.
-/

namespace Bytes

abbrev Image := ℕ → UInt8

def zero : Image := fun _ => 0

/-- The `n`-byte number at offset `o`, most significant byte first. -/
def getBe (b : Image) (o : ℕ) : ℕ → ℕ
  | 0 => 0
  | n + 1 => getBe b o n * 256 + (b (o + n)).toNat

/-- Overwrite `n` bytes at offset `o` with `v`, most significant byte first. -/
def putBe (b : Image) (o n v : ℕ) : Image := fun i =>
  if o ≤ i ∧ i < o + n then UInt8.ofNat (v / 256 ^ (o + n - 1 - i)) else b i

/-- The `n`-byte number at offset `o`, least significant byte first. -/
def getLe (b : Image) (o : ℕ) : ℕ → ℕ
  | 0 => 0
  | n + 1 => getLe b o n + (b (o + n)).toNat * 256 ^ n

/-- Overwrite `n` bytes at offset `o` with `v`, least significant byte first. -/
def putLe (b : Image) (o n v : ℕ) : Image := fun i =>
  if o ≤ i ∧ i < o + n then UInt8.ofNat (v / 256 ^ (i - o)) else b i

theorem getBe_lt (b : Image) (o n : ℕ) : getBe b o n < 256 ^ n := by
  induction n with
  | zero => simp [getBe]
  | succ n ih =>
    have hb : (b (o + n)).toNat < 256 := (b (o + n)).toNat_lt
    simp only [getBe]
    omega

theorem getLe_lt (b : Image) (o n : ℕ) : getLe b o n < 256 ^ n := by
  induction n with
  | zero => simp [getLe]
  | succ n ih =>
    have hb : (b (o + n)).toNat ≤ 255 := by
      have := (b (o + n)).toNat_lt
      omega
    have hm : (b (o + n)).toNat * 256 ^ n ≤ 255 * 256 ^ n := Nat.mul_le_mul_right _ hb
    simp only [getLe]
    omega

variable {a b : Image} {o n : ℕ}

theorem getBe_congr (h : ∀ i, o ≤ i → i < o + n → a i = b i) : getBe a o n = getBe b o n := by
  induction n with
  | zero => rfl
  | succ n ih =>
    simp only [getBe]
    rw [ih fun i h1 h2 => h i h1 (by omega), h (o + n) (by omega) (by omega)]

theorem getLe_congr (h : ∀ i, o ≤ i → i < o + n → a i = b i) : getLe a o n = getLe b o n := by
  induction n with
  | zero => rfl
  | succ n ih =>
    simp only [getLe]
    rw [ih fun i h1 h2 => h i h1 (by omega), h (o + n) (by omega) (by omega)]

theorem getBe_inj (h : getBe a o n = getBe b o n) : ∀ i, o ≤ i → i < o + n → a i = b i := by
  induction n with
  | zero => omega
  | succ n ih =>
    intro i h1 h2
    have ha : (a (o + n)).toNat < 256 := (a (o + n)).toNat_lt
    have hb : (b (o + n)).toNat < 256 := (b (o + n)).toNat_lt
    simp only [getBe] at h
    by_cases hi : i = o + n
    · subst hi
      exact UInt8.toNat_inj.mp (by omega)
    · exact ih (by omega) i h1 (by omega)

private theorem toNat_ofNat_byte (v : ℕ) : (UInt8.ofNat v).toNat = v % 256 := by
  simp

private theorem getBe_putBe_lead (b : Image) (o n v : ℕ) :
    ∀ k, k ≤ n → getBe (putBe b o n v) o k = v / 256 ^ (n - k) % 256 ^ k := by
  intro k
  induction k with
  | zero => simp [getBe, Nat.mod_one]
  | succ k ih =>
    intro hk
    have hin : o ≤ o + k ∧ o + k < o + n := ⟨by omega, by omega⟩
    have hexp : o + n - 1 - (o + k) = n - (k + 1) := by omega
    have hsplit : (256 : ℕ) ^ (n - k) = 256 ^ (n - (k + 1)) * 256 := by
      rw [← pow_succ]
      congr 1
      omega
    simp only [getBe]
    rw [ih (by omega), hsplit, ← Nat.div_div_eq_div_mul]
    simp only [putBe, if_pos hin, hexp, toNat_ofNat_byte]
    rw [pow_succ, Nat.mul_comm (256 ^ k) 256, Nat.mod_mul]
    omega

@[simp] theorem getBe_putBe (b : Image) (o n v : ℕ) : getBe (putBe b o n v) o n = v % 256 ^ n := by
  have h := getBe_putBe_lead b o n v n le_rfl
  simpa using h

private theorem getLe_putLe_lead (b : Image) (o n v : ℕ) :
    ∀ k, k ≤ n → getLe (putLe b o n v) o k = v % 256 ^ k := by
  intro k
  induction k with
  | zero => simp [getLe, Nat.mod_one]
  | succ k ih =>
    intro hk
    have hin : o ≤ o + k ∧ o + k < o + n := ⟨by omega, by omega⟩
    have hexp : o + k - o = k := by omega
    simp only [getLe]
    rw [ih (by omega)]
    simp only [putLe, if_pos hin, hexp, toNat_ofNat_byte]
    rw [pow_succ, Nat.mod_mul, Nat.mul_comm]

@[simp] theorem getLe_putLe (b : Image) (o n v : ℕ) : getLe (putLe b o n v) o n = v % 256 ^ n :=
  getLe_putLe_lead b o n v n le_rfl

variable {v i : ℕ}

theorem putBe_other (b : Image) (h : i < o ∨ o + n ≤ i) : putBe b o n v i = b i := by
  have hout : ¬ (o ≤ i ∧ i < o + n) := by omega
  simp [putBe, hout]

theorem putLe_other (b : Image) (h : i < o ∨ o + n ≤ i) : putLe b o n v i = b i := by
  have hout : ¬ (o ≤ i ∧ i < o + n) := by omega
  simp [putLe, hout]

theorem getBe_putBe_of_disjoint (b : Image) {o' n' : ℕ}
    (h : o' + n' ≤ o ∨ o + n ≤ o') : getBe (putBe b o n v) o' n' = getBe b o' n' :=
  getBe_congr fun _ h1 h2 => putBe_other b (by omega)

theorem getLe_putLe_of_disjoint (b : Image) {o' n' : ℕ}
    (h : o' + n' ≤ o ∨ o + n ≤ o') : getLe (putLe b o n v) o' n' = getLe b o' n' :=
  getLe_congr fun _ h1 h2 => putLe_other b (by omega)

theorem putBe_getBe (b : Image) (o n : ℕ) : putBe b o n (getBe b o n) = b := by
  funext i
  by_cases hi : o ≤ i ∧ i < o + n
  · refine getBe_inj ?_ i hi.1 hi.2
    rw [getBe_putBe, Nat.mod_eq_of_lt (getBe_lt b o n)]
  · exact putBe_other b (by omega)

theorem putBe_putBe (b : Image) (o n v w : ℕ) : putBe (putBe b o n v) o n w = putBe b o n w := by
  funext i
  by_cases hi : o ≤ i ∧ i < o + n <;> simp [putBe, hi]

/-- Copy `n` bytes of `src`, from its offset `s`, to offset `o`. -/
def copyIn (b : Image) (o n : ℕ) (src : Image) (s : ℕ) : Image := fun i =>
  if o ≤ i ∧ i < o + n then src (s + (i - o)) else b i

theorem copyIn_other (b src : Image) {s : ℕ} (h : i < o ∨ o + n ≤ i) :
    copyIn b o n src s i = b i := by
  have hout : ¬ (o ≤ i ∧ i < o + n) := by omega
  simp [copyIn, hout]

def SameBytes (n : ℕ) (a b : Image) : Prop := ∀ i < n, a i = b i

instance (n : ℕ) (a b : Image) : Decidable (SameBytes n a b) :=
  inferInstanceAs (Decidable (∀ i < n, a i = b i))

@[refl] theorem SameBytes.refl (n : ℕ) (a : Image) : SameBytes n a a := fun _ _ => rfl

end Bytes
