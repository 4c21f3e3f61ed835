import AvoryOS.Radix.Tree
import Mathlib.Algebra.Order.Group.Nat
import Mathlib.Data.Finset.Card
import Mathlib.Order.Interval.Finset.Nat
import Mathlib.Tactic.Ring

/-!
# Cells

The shape of a tree follows from its keys.  The key `k` has one cell at each level `l`, the cell
`(l, k / 64 ^ l)`: its value at level `0`, and above the address of the node that has the cell
below among its slots.  A cell is there if a key under it is.

While a key is put in, or after it is taken out, the cells on its way are there from some level
on although no key is under them; `Shape t m C k a` says that the cells are `C` for the keys of
`m` and on the way of `k` from level `a` on.  Nodes are put in and taken out one at a time.
-/

namespace AvoryOS.Radix

open Function Finset

/-! ## Keys -/

/-- The cell of the key `k` at level `l`. -/
def cellOf (k l : ℕ) : ℕ := k / 64 ^ l

@[simp] theorem cellOf_zero (k : ℕ) : cellOf k 0 = k := by
  rw [cellOf, pow_zero, Nat.div_one]

theorem cellOf_succ (k l : ℕ) : cellOf k (l + 1) = cellOf k l / 64 := by
  rw [cellOf, cellOf, pow_succ, Nat.div_div_eq_div_mul]

theorem shiftRight_eq_cellOf (k l : ℕ) : k >>> (l * 6) = cellOf k l := by
  rw [Nat.shiftRight_eq_div_pow, Nat.mul_comm, pow_mul]
  rfl

theorem radixSlot_eq (k l : ℕ) : radixSlot k l = cellOf k l % 64 := by
  rw [radixSlot, shiftRight_eq_cellOf]

theorem radixSlot_lt (k l : ℕ) : radixSlot k l < 64 := by
  exact Nat.mod_lt _ (by decide)

theorem cellOf_slot (k l : ℕ) : cellOf k (l + 1) * 64 + radixSlot k l = cellOf k l := by
  rw [cellOf_succ, radixSlot_eq]
  omega

/-- Keys that have a cell in common have all cells above in common. -/
theorem cellOf_eq_of_le {x k l j : ℕ} (h : cellOf x l = cellOf k l) (hl : l ≤ j) :
    cellOf x j = cellOf k j := by
  induction j, hl using Nat.le_induction with
  | base => exact h
  | succ j _ ih => rw [cellOf_succ, cellOf_succ, ih]

theorem cellOf_eq_zero {k l : ℕ} : cellOf k l = 0 ↔ k < 64 ^ l :=
  Nat.div_eq_zero_iff_lt (Nat.pow_pos (by decide))

theorem requiredFrom_spec (k h : ℕ) (hk : k < 2 ^ 64) (hh : h ≤ 11) :
    h ≤ requiredFrom k h ∧ requiredFrom k h ≤ 11 ∧ cellOf k (requiredFrom k h) = 0 ∧
      (h < requiredFrom k h → cellOf k (requiredFrom k h - 1) ≠ 0) := by
  fun_induction requiredFrom k h with
  | case1 h hc ih =>
    rw [shiftRight_eq_cellOf] at hc
    obtain ⟨h1, h2, h3, h4⟩ := ih hc.1
    refine ⟨by omega, h2, h3, fun _ => ?_⟩
    by_cases he : h + 1 < requiredFrom k (h + 1)
    · exact h4 he
    · rw [show requiredFrom k (h + 1) - 1 = h by omega]
      exact hc.2
  | case2 h hc =>
    rw [shiftRight_eq_cellOf] at hc
    refine ⟨le_rfl, hh, ?_, fun h => absurd h (Nat.lt_irrefl _)⟩
    by_cases he : h < 11
    · exact not_not.mp fun hn => hc ⟨he, hn⟩
    · obtain rfl : h = 11 := by omega
      exact cellOf_eq_zero.mpr (Nat.lt_of_lt_of_le hk (by decide))

theorem requiredHeight_spec {k : ℕ} (hk : k < 2 ^ 64) :
    1 ≤ requiredHeight k ∧ requiredHeight k ≤ 11 ∧ cellOf k (requiredHeight k) = 0 ∧
      (1 < requiredHeight k → cellOf k (requiredHeight k - 1) ≠ 0) :=
  requiredFrom_spec k 1 hk (by decide)

theorem requiredHeight_le_iff {k h : ℕ} (hk : k < 2 ^ 64) (h0 : 0 < h) :
    requiredHeight k ≤ h ↔ cellOf k h = 0 := by
  obtain ⟨h1, -, h3, h4⟩ := requiredHeight_spec hk
  constructor
  · intro hle
    rw [cellOf_eq_zero] at h3 ⊢
    exact Nat.lt_of_lt_of_le h3 (Nat.pow_le_pow_right (by decide) hle)
  intro hz
  by_contra hlt
  refine h4 (by omega) ?_
  rw [cellOf_eq_zero] at hz ⊢
  exact Nat.lt_of_lt_of_le hz (Nat.pow_le_pow_right (by decide) (by omega))

/-! ## The cells of a tree -/

/-- How many of the slots `f` are in use. -/
def used (f : ℕ → ℕ) : ℕ := ((range 64).filter fun i => f i ≠ 0).card

/-- The cells of the tree `t` are `C`: those of the keys of `m`, and those on the way of `k` from
level `a` on. -/
structure Shape (t : Tree) (m : ℕ → ℕ) (C : ℕ → ℕ → ℕ) (k a : ℕ) : Prop where
  base : ∀ q, C 0 q = m q
  live : ∀ l q, C l q ≠ 0 ↔ l ≤ t.height ∧
    ((∃ x, m x ≠ 0 ∧ cellOf x l = q) ∨ a ≤ l ∧ cellOf k l = q)
  fits : ∀ x, m x ≠ 0 → 0 < t.height ∧ cellOf x t.height = 0
  root : t.root = C t.height 0
  slots : ∀ l q i, C (l + 1) q ≠ 0 → i < 64 → (t.heap (C (l + 1) q)).slots i = C l (q * 64 + i)
  count : ∀ l q, C (l + 1) q ≠ 0 → (t.heap (C (l + 1) q)).count = used fun i => C l (q * 64 + i)
  inj : ∀ l j q r, C (l + 1) q ≠ 0 → C (l + 1) q = C (j + 1) r → l = j ∧ q = r

/-- A slot of a node and its count are stored. -/
def setSlot (t : Tree) (b i v n : ℕ) : Tree :=
  t.setNode b ⟨update (t.heap b).slots i v, n⟩

def setCell (C : ℕ → ℕ → ℕ) (l q v : ℕ) : ℕ → ℕ → ℕ :=
  fun j r => if j = l ∧ r = q then v else C j r

@[simp] theorem setCell_self (C : ℕ → ℕ → ℕ) (l q v : ℕ) : setCell C l q v l q = v :=
  if_pos ⟨rfl, rfl⟩

theorem setCell_other {C : ℕ → ℕ → ℕ} {l q v j r : ℕ} (h : ¬(j = l ∧ r = q)) :
    setCell C l q v j r = C j r :=
  if_neg h

variable {f : ℕ → ℕ}

theorem used_set {g : ℕ → ℕ} {i : ℕ} (hi : i < 64) (h0 : f i = 0) (h1 : g i ≠ 0)
    (he : ∀ j, j ≠ i → g j = f j) : used g = used f + 1 := by
  have hset : (range 64).filter (fun j => g j ≠ 0) =
      Insert.insert i ((range 64).filter fun j => f j ≠ 0) := by
    ext j
    rw [mem_insert, mem_filter, mem_filter, mem_range]
    by_cases hj : j = i
    · subst hj
      exact iff_of_true ⟨hi, h1⟩ (.inl rfl)
    · rw [or_iff_right hj, he j hj]
  rw [used, used, hset, card_insert_of_notMem]
  intro hm
  exact (mem_filter.mp hm).2 h0

theorem used_first (h0 : f 0 ≠ 0) (he : ∀ i, i ≠ 0 → f i = 0) : used f = 1 := by
  rw [used_set (by decide) rfl h0 he]
  simp [used]

theorem used_zero : used f = 0 ↔ ∀ i < 64, f i = 0 := by
  rw [used]
  simp

theorem used_one (h : used f = 1) (h0 : f 0 ≠ 0) {i : ℕ} (hi : i < 64) (hne : i ≠ 0) : f i = 0 := by
  by_contra hc
  have hmem : ∀ j, j < 64 → f j ≠ 0 → j ∈ (range 64).filter fun j => f j ≠ 0 := fun j hj hf =>
    mem_filter.mpr ⟨mem_range.mpr hj, hf⟩
  have hone := card_le_one.mp (Nat.le_of_eq h)
  exact hne (hone i (hmem i hi hc) 0 (hmem 0 (by decide) h0))

namespace Shape

variable {t t' : Tree} {m : ℕ → ℕ} {C : ℕ → ℕ → ℕ} {k a : ℕ}

theorem frame (h : Shape t m C k a) (hh : t'.height = t.height) (hr : t'.root = t.root)
    (hn : ∀ l q, C (l + 1) q ≠ 0 → t'.heap (C (l + 1) q) = t.heap (C (l + 1) q)) :
    Shape t' m C k a where
  base := h.base
  live l q := hh ▸ h.live l q
  fits := hh ▸ h.fits
  root := by rw [hr, hh, h.root]
  slots l q i hc hi := by
    rw [hn l q hc]
    exact h.slots l q i hc hi
  count l q hc := by
    rw [hn l q hc]
    exact h.count l q hc
  inj := h.inj

variable {l : ℕ}

theorem unmarked_iff {p q : Prop} {h : ℕ} : l ≤ h ∧ (p ∨ h + 1 ≤ l ∧ q) ↔ l ≤ h ∧ p :=
  and_congr_right fun _ => or_iff_left fun hq => by omega

theorem live_iff (h : Shape t m C 0 (t.height + 1)) {q : ℕ} :
    C l q ≠ 0 ↔ l ≤ t.height ∧ ∃ x, m x ≠ 0 ∧ cellOf x l = q := by
  rw [h.live, unmarked_iff]

theorem root_ne_zero (h : Shape t m C 0 (t.height + 1)) {x : ℕ} (hx : m x ≠ 0) : t.root ≠ 0 := by
  rw [h.root]
  exact h.live_iff.mpr ⟨le_rfl, x, hx, (h.fits x hx).2⟩

theorem exists_key (h : Shape t m C 0 (t.height + 1)) (hr : t.root ≠ 0) : ∃ x, m x ≠ 0 := by
  rw [h.root] at hr
  obtain ⟨-, x, hx, -⟩ := h.live_iff.mp hr
  exact ⟨x, hx⟩

/-- The cells on the way of `k` may be marked from one that is there. -/
theorem mark (h : Shape t m C 0 (t.height + 1)) (hc : C a (cellOf k a) ≠ 0) : Shape t m C k a where
  __ := h
  live l q := by
    obtain ⟨-, x, hx, he⟩ := h.live_iff.mp hc
    rw [h.live_iff]
    refine and_congr_right fun _ => (or_iff_left_of_imp ?_).symm
    rintro ⟨hal, rfl⟩
    exact ⟨x, hx, cellOf_eq_of_le he hal⟩

/-- The cells on the way of `k` need no mark if there is a key under the lowest. -/
theorem unmark (h : Shape t m C k a) {x : ℕ} (hx : m x ≠ 0) (he : cellOf x a = cellOf k a) :
    Shape t m C 0 (t.height + 1) where
  __ := h
  live l q := by
    rw [h.live, unmarked_iff]
    refine and_congr_right fun _ => or_iff_left_of_imp ?_
    rintro ⟨hal, rfl⟩
    exact ⟨x, hx, cellOf_eq_of_le he hal⟩

theorem up (h : Shape t m C k a) {q : ℕ} (hc : C l q ≠ 0) (hl : l < t.height) :
    C (l + 1) (q / 64) ≠ 0 := by
  obtain ⟨-, hx | ⟨ha, rfl⟩⟩ := (h.live l q).mp hc
  · obtain ⟨x, hx, rfl⟩ := hx
    exact (h.live _ _).mpr ⟨hl, .inl ⟨x, hx, cellOf_succ x l⟩⟩
  · exact (h.live _ _).mpr ⟨hl, .inr ⟨by omega, cellOf_succ k l⟩⟩

variable {m' : ℕ → ℕ}

theorem change (h : Shape t m C k a) {q v n : ℕ} {k' a' : ℕ}
    (hl : l < t.height) (hP : C (l + 1) (q / 64) ≠ 0) (hbase : ∀ r, setCell C l q v 0 r = m' r)
    (hlive : ∀ j r, setCell C l q v j r ≠ 0 ↔ j ≤ t.height ∧
      ((∃ x, m' x ≠ 0 ∧ cellOf x j = r) ∨ a' ≤ j ∧ cellOf k' j = r))
    (hfits : ∀ x, m' x ≠ 0 → cellOf x t.height = 0)
    (hn : n = used fun i => setCell C l q v l (q / 64 * 64 + i))
    (hnew : ∀ j, l = j + 1 → v ≠ 0 → (∀ i < 64, (t.heap v).slots i = C j (q * 64 + i)) ∧
      (t.heap v).count = (used fun i => C j (q * 64 + i)) ∧ ∀ i r, C (i + 1) r ≠ v) :
    Shape (setSlot t (C (l + 1) (q / 64)) (q % 64) v n) m' (setCell C l q v) k' a' := by
  have hkeep : ∀ {j r}, C (j + 1) r ≠ 0 → C (j + 1) r ≠ C (l + 1) (q / 64) → ∀ {i}, i < 64 →
      setCell C l q v j (r * 64 + i) = C j (r * 64 + i) := by
    intro j r _ hne i hi
    refine setCell_other fun e => hne ?_
    rw [e.1, ← e.2, show (r * 64 + i) / 64 = r by omega]
  have hrest : ∀ {b}, b ≠ C (l + 1) (q / 64) →
      (setSlot t (C (l + 1) (q / 64)) (q % 64) v n).heap b = t.heap b := fun hne =>
    update_of_ne hne ..
  have hnode : (setSlot t (C (l + 1) (q / 64)) (q % 64) v n).heap (C (l + 1) (q / 64)) =
      ⟨update (t.heap (C (l + 1) (q / 64))).slots (q % 64) v, n⟩ := update_self ..
  -- a node is the new cell, or the one above it, or another
  have hcases : ∀ {j r}, setCell C l q v (j + 1) r ≠ 0 →
      (l = j + 1 ∧ r = q ∧ v ≠ 0) ∨ (setCell C l q v (j + 1) r = C (j + 1) r ∧
        (j = l ∧ r = q / 64 ∨ C (j + 1) r ≠ C (l + 1) (q / 64))) := by
    intro j r hc
    by_cases he : j + 1 = l ∧ r = q
    · refine .inl ⟨he.1.symm, he.2, ?_⟩
      rwa [setCell, if_pos he] at hc
    refine .inr ⟨setCell_other he, ?_⟩
    rw [setCell_other he] at hc
    by_cases hp : C (j + 1) r = C (l + 1) (q / 64)
    · exact .inl (h.inj _ _ _ _ hc hp)
    · exact .inr hp
  refine ⟨hbase, hlive, fun x hx => ⟨Nat.lt_of_le_of_lt (Nat.zero_le _) hl, hfits x hx⟩, ?_, ?_,
    ?_, ?_⟩
  · exact h.root.trans (setCell_other fun e => Nat.ne_of_gt hl e.1).symm
  · intro j r i hc hi
    obtain ⟨rfl, rfl, hv⟩ | ⟨he, ⟨rfl, rfl⟩ | hne⟩ := hcases hc
    · obtain ⟨hslots, -, hfresh⟩ := hnew j rfl hv
      rw [setCell_self, hrest (hfresh _ _).symm, hslots i hi,
        setCell_other (fun e => Nat.ne_of_lt j.lt_succ_self e.1)]
    · rw [he, hnode]
      dsimp only
      by_cases hiq : i = q % 64
      · subst hiq
        rw [update_self, Nat.div_add_mod', setCell_self]
      · rw [update_of_ne hiq, h.slots _ _ _ hP hi, setCell_other (by omega)]
    · rw [he] at hc ⊢
      rw [hrest hne, h.slots j r i hc hi, hkeep hc hne hi]
  · intro j r hc
    obtain ⟨rfl, rfl, hv⟩ | ⟨he, ⟨rfl, rfl⟩ | hne⟩ := hcases hc
    · obtain ⟨-, hcount, hfresh⟩ := hnew j rfl hv
      rw [setCell_self, hrest (hfresh _ _).symm, hcount]
      refine congrArg used (funext fun i => (setCell_other fun e => ?_).symm)
      exact Nat.ne_of_lt j.lt_succ_self e.1
    · rw [he, hnode, hn]
    rw [he] at hc ⊢
    rw [hrest hne, h.count j r hc, used, used]
    refine congrArg card (filter_congr fun i hi => ?_)
    rw [hkeep hc hne (mem_range.mp hi)]
  intro j i r r' hc he
  have hc' : setCell C l q v (i + 1) r' ≠ 0 := he ▸ hc
  obtain ⟨rfl, rfl, hv⟩ | ⟨h1, -⟩ := hcases hc
  · obtain ⟨h2, rfl, -⟩ | ⟨h2, -⟩ := hcases hc'
    · exact ⟨Nat.succ.inj h2, rfl⟩
    · rw [setCell_self, h2] at he
      exact absurd he.symm ((hnew j rfl hv).2.2 i r')
  obtain ⟨rfl, rfl, hv⟩ | ⟨h2, -⟩ := hcases hc'
  · rw [setCell_self, h1] at he
    exact absurd he ((hnew i rfl hv).2.2 j r)
  rw [h1] at hc he
  rw [h2] at he
  exact h.inj _ _ _ _ hc he

theorem count_put (h : Shape t m C k a) {q v : ℕ} (hP : C (l + 1) (q / 64) ≠ 0)
    (h0 : C l q = 0) (hv : v ≠ 0) : (t.heap (C (l + 1) (q / 64))).count + 1 =
      used fun i => setCell C l q v l (q / 64 * 64 + i) := by
  rw [h.count _ _ hP]
  refine (used_set (i := q % 64) (Nat.mod_lt _ (by decide)) ?_ ?_ fun j hj => ?_).symm
  · rwa [Nat.div_add_mod']
  · rwa [Nat.div_add_mod', setCell_self]
  · exact setCell_other (by omega)

theorem count_take (h : Shape t m C k a) {q : ℕ} (hP : C (l + 1) (q / 64) ≠ 0)
    (hc : C l q ≠ 0) : (t.heap (C (l + 1) (q / 64))).count - 1 =
      used fun i => setCell C l q 0 l (q / 64 * 64 + i) := by
  rw [h.count _ _ hP]
  refine Nat.sub_eq_of_eq_add
    (used_set (i := q % 64) (Nat.mod_lt _ (by decide)) ?_ ?_ fun j hj => ?_)
  · rw [Nat.div_add_mod', setCell_self]
  · rwa [Nat.div_add_mod']
  · exact (setCell_other (by omega)).symm

theorem addNode {b : ℕ} (h : Shape t m C k (l + 2)) (hl : l + 1 < t.height)
    (hP : C (l + 2) (cellOf k (l + 2)) ≠ 0) (hnone : C (l + 1) (cellOf k (l + 1)) = 0)
    (hb : b ≠ 0) (hfresh : ∀ j r, C (j + 1) r ≠ b) (hzero : t.heap b = Node.zero) :
    Shape (setSlot t (C (l + 2) (cellOf k (l + 2))) (radixSlot k (l + 1)) b
        ((t.heap (C (l + 2) (cellOf k (l + 2)))).count + 1)) m
      (setCell C (l + 1) (cellOf k (l + 1)) b) k (l + 1) := by
  set q := cellOf k (l + 1)
  have hup : cellOf k (l + 2) = q / 64 := cellOf_succ k (l + 1)
  rw [hup] at hP ⊢
  rw [radixSlot_eq]
  have hbelow : ∀ i < 64, C l (q * 64 + i) = 0 := by
    intro i hi
    by_contra hc
    obtain ⟨-, ⟨x, hx, he⟩ | ⟨ha, -⟩⟩ := (h.live _ _).mp hc
    · refine (h.live (l + 1) q).mpr ⟨Nat.le_of_lt hl, .inl ⟨x, hx, ?_⟩⟩ hnone
      rw [cellOf_succ]
      omega
    · omega
  refine h.change hl hP ?_ ?_ (fun x hx => (h.fits x hx).2) (h.count_put hP hnone hb) ?_
  · intro r
    rw [setCell_other (by omega), h.base]
  · intro j r
    by_cases he : j = l + 1 ∧ r = q
    · obtain ⟨rfl, rfl⟩ := he
      rw [setCell_self]
      exact iff_of_true hb ⟨Nat.le_of_lt hl, .inr ⟨le_rfl, rfl⟩⟩
    rw [setCell_other he, h.live]
    refine and_congr_right fun _ => or_congr_right (and_congr_left fun hr => ?_)
    have : j ≠ l + 1 := fun e => he ⟨e, by rw [← hr, e]⟩
    omega
  rintro j hj -
  obtain rfl : l = j := Nat.succ.inj hj
  rw [hzero]
  exact ⟨fun i hi => (hbelow i hi).symm, (used_zero.mpr hbelow).symm, hfresh⟩

theorem exists_cellOf_iff {j r : ℕ} (h0 : m k = 0) (h1 : m' k ≠ 0)
    (he : ∀ x, x ≠ k → m' x = m x) (hne : ¬(j = 0 ∧ r = k)) : (∃ x, m' x ≠ 0 ∧ cellOf x j = r) ↔
      (∃ x, m x ≠ 0 ∧ cellOf x j = r) ∨ 1 ≤ j ∧ cellOf k j = r := by
  constructor
  · rintro ⟨x, hx, hr⟩
    by_cases hxk : x = k
    · subst hxk
      refine .inr ⟨Nat.one_le_iff_ne_zero.mpr fun e => hne ⟨e, ?_⟩, hr⟩
      rw [← hr, e, cellOf_zero]
    · exact .inl ⟨x, he x hxk ▸ hx, hr⟩
  · rintro (⟨x, hx, hr⟩ | ⟨-, hr⟩)
    · have hxk : x ≠ k := fun e => hx (e ▸ h0)
      exact ⟨x, (he x hxk).symm ▸ hx, hr⟩
    · exact ⟨k, h1, hr⟩

theorem addKey {v : ℕ} (h : Shape t m C k 1) (h0 : 0 < t.height)
    (hP : C 1 (cellOf k 1) ≠ 0) (hnone : m k = 0) (hv : v ≠ 0) (hfit : cellOf k t.height = 0) :
    Shape (setSlot t (C 1 (cellOf k 1)) (radixSlot k 0) v ((t.heap (C 1 (cellOf k 1))).count + 1))
      (update m k v) (setCell C 0 k v) 0 (t.height + 1) := by
  refine h.change h0 hP ?_ ?_ ?_ (h.count_put hP ((h.base k).trans hnone) hv)
    fun j hj => absurd hj (Nat.succ_ne_zero j).symm
  · intro r
    rw [setCell, update_apply, h.base]
    simp
  · intro j r
    have hkey : update m k v k ≠ 0 := by rwa [update_self]
    by_cases he : j = 0 ∧ r = k
    · obtain ⟨rfl, rfl⟩ := he
      rw [setCell_self]
      exact iff_of_true hv ⟨Nat.zero_le _, .inl ⟨r, hkey, cellOf_zero r⟩⟩
    rw [setCell_other he, h.live, unmarked_iff,
      exists_cellOf_iff hnone hkey (fun x hx => update_of_ne hx ..) he]
  · intro x hx
    by_cases hxk : x = k
    · rw [hxk]
      exact hfit
    · rw [update_of_ne hxk] at hx
      exact (h.fits x hx).2

/-- A key is taken from its leaf; the nodes on its way stay for now. -/
theorem delKey (h : Shape t m C 0 (t.height + 1)) (h0 : 0 < t.height)
    (hP : C 1 (cellOf k 1) ≠ 0) (hkey : m k ≠ 0) :
    Shape (setSlot t (C 1 (cellOf k 1)) (radixSlot k 0) 0 ((t.heap (C 1 (cellOf k 1))).count - 1))
      (update m k 0) (setCell C 0 k 0) k 1 := by
  have hsub : ∀ x, update m k 0 x ≠ 0 → x ≠ k ∧ m x ≠ 0 := by
    intro x hx
    have hxk : x ≠ k := by
      rintro rfl
      exact hx (update_self ..)
    rw [update_of_ne hxk] at hx
    exact ⟨hxk, hx⟩
  refine h.change h0 hP ?_ ?_ (fun x hx => (h.fits x (hsub x hx).2).2)
    (h.count_take hP ((h.base k).trans_ne hkey)) fun _ _ hv => absurd rfl hv
  · intro r
    rw [setCell, update_apply, h.base]
    simp
  intro j r
  by_cases he : j = 0 ∧ r = k
  · obtain ⟨rfl, rfl⟩ := he
    rw [setCell_self]
    refine iff_of_false (absurd rfl) ?_
    rintro ⟨-, ⟨x, hx, hr⟩ | ⟨h1, -⟩⟩
    · exact (hsub x hx).1 (by rw [← hr, cellOf_zero])
    · exact Nat.not_succ_le_zero 0 h1
  rw [setCell_other he, h.live_iff,
    exists_cellOf_iff (update_self k 0 m) hkey (fun x hx => (update_of_ne hx ..).symm) he]

/-- A node on the way of `k` that has become empty is taken out. -/
theorem delNode (h : Shape t m C k (l + 1)) (hl : l + 1 < t.height)
    (hc : C (l + 1) (cellOf k (l + 1)) ≠ 0)
    (hempty : (t.heap (C (l + 1) (cellOf k (l + 1)))).count = 0) :
    Shape (setSlot t (C (l + 2) (cellOf k (l + 2))) (radixSlot k (l + 1)) 0
        ((t.heap (C (l + 2) (cellOf k (l + 2)))).count - 1)) m
      (setCell C (l + 1) (cellOf k (l + 1)) 0) k (l + 2) := by
  set q := cellOf k (l + 1)
  have hP := h.up hc hl
  have hup : cellOf k (l + 2) = q / 64 := cellOf_succ k (l + 1)
  rw [hup, radixSlot_eq]
  have hbelow : ∀ i < 64, C l (q * 64 + i) = 0 := by
    rw [h.count _ _ hc] at hempty
    exact used_zero.mp hempty
  refine h.change hl hP ?_ ?_ (fun x hx => (h.fits x hx).2) (h.count_take hP hc)
    fun _ _ hv => absurd rfl hv
  · intro r
    rw [setCell_other (by omega), h.base]
  intro j r
  by_cases he : j = l + 1 ∧ r = q
  swap
  · rw [setCell_other he, h.live]
    refine and_congr_right fun _ => or_congr_right (and_congr_left fun hr => ?_)
    have : j ≠ l + 1 := fun e => he ⟨e, by rw [← hr, e]⟩
    omega
  obtain ⟨rfl, rfl⟩ := he
  rw [setCell_self]
  refine iff_of_false (absurd rfl) ?_
  rintro ⟨-, ⟨x, hx, hr⟩ | ⟨h1, -⟩⟩
  · -- a key under the node would be in one of its slots
    refine (h.live l (cellOf x l)).mpr ⟨by omega, .inl ⟨x, hx, rfl⟩⟩ ?_
    rw [← cellOf_slot x l, hr]
    exact hbelow _ (radixSlot_lt x l)
  · omega

/-! ## The height changes -/

theorem empty {heap : ℕ → Node} {entries nodes : ℕ} :
    Shape ⟨heap, 0, entries, nodes, 0⟩ (fun _ => 0) (fun _ _ => 0) 0 1 where
  base _ := rfl
  live l q := by
    refine iff_of_false (absurd rfl) ?_
    rintro ⟨hl, ⟨x, hx, -⟩ | ⟨h1, -⟩⟩
    · exact hx rfl
    · exact Nat.not_succ_le_zero 0 (Nat.le_trans h1 hl)
  fits _ hx := absurd rfl hx
  root := rfl
  slots _ _ _ h := absurd rfl h
  count _ _ h := absurd rfl h
  inj _ _ _ _ h := absurd rfl h

theorem newRoot {h b : ℕ} (hk : cellOf k (h + 1) = 0) (hb : b ≠ 0) (hroot : t.root = b)
    (hheight : t.height = h + 1) (hzero : t.heap b = Node.zero) :
    Shape t (fun _ => 0) (setCell (fun _ _ => 0) (h + 1) 0 b) k (h + 1) := by
  have hcell : ∀ {j r}, setCell (fun _ _ => 0) (h + 1) 0 b j r ≠ 0 ↔ j = h + 1 ∧ r = 0 := by
    intro j r
    rw [setCell]
    split
    · next e => exact iff_of_true hb e
    · next e => exact iff_of_false (absurd rfl) e
  have hat : setCell (fun _ _ => 0) (h + 1) 0 b (h + 1) 0 = b := setCell_self ..
  refine ⟨?_, ?_, fun _ hx => absurd rfl hx, by rw [hroot, hheight, hat], ?_, ?_, ?_⟩
  · intro q
    exact setCell_other (by omega)
  · intro j r
    rw [hcell, hheight]
    constructor
    · rintro ⟨rfl, rfl⟩
      exact ⟨le_rfl, .inr ⟨le_rfl, hk⟩⟩
    rintro ⟨h1, ⟨x, hx, -⟩ | ⟨h2, rfl⟩⟩
    · exact absurd rfl hx
    · obtain rfl : j = h + 1 := Nat.le_antisymm h1 h2
      exact ⟨rfl, hk⟩
  · intro j r i hc hi
    obtain ⟨h1, rfl⟩ := hcell.mp hc
    obtain rfl : j = h := Nat.succ.inj h1
    rw [hat, hzero, setCell_other (fun e => Nat.ne_of_lt j.lt_succ_self e.1)]
    rfl
  · intro j r hc
    obtain ⟨h1, rfl⟩ := hcell.mp hc
    obtain rfl : j = h := Nat.succ.inj h1
    rw [hat, hzero]
    exact (used_zero.mpr fun i _ =>
      setCell_other (fun e => Nat.ne_of_lt j.lt_succ_self e.1)).symm
  · intro j i r r' hc he
    obtain ⟨h1, rfl⟩ := hcell.mp hc
    obtain ⟨h2, rfl⟩ := hcell.mp (he ▸ hc)
    exact ⟨Nat.succ.inj (h1.trans h2.symm), rfl⟩

theorem addRoot {b : ℕ} (h : Shape t m C 0 (t.height + 1)) (hroot : t.root ≠ 0) (hb : b ≠ 0)
    (hfresh : ∀ j r, C (j + 1) r ≠ b) (hr : t'.root = b) (hh : t'.height = t.height + 1)
    (hheap : t'.heap = t.heap) (hnode : t.heap b = ⟨update (fun _ => 0) 0 t.root, 1⟩) :
    Shape t' m (setCell C (t.height + 1) 0 b) 0 (t'.height + 1) := by
  have htop : ∀ r, C t.height r ≠ 0 → r = 0 := by
    intro r hc
    obtain ⟨-, x, hx, rfl⟩ := h.live_iff.mp hc
    exact (h.fits x hx).2
  have hfits : ∀ x, m x ≠ 0 → cellOf x (t.height + 1) = 0 := fun x hx => by
    rw [cellOf_succ, (h.fits x hx).2]
  have hat : setCell C (t.height + 1) 0 b (t.height + 1) 0 = b := setCell_self ..
  have hlow : ∀ {j r}, j ≤ t.height → setCell C (t.height + 1) 0 b j r = C j r := fun hj =>
    setCell_other (by omega)
  -- a node is the new root, or one that was there
  have hcases : ∀ {j r}, setCell C (t.height + 1) 0 b (j + 1) r ≠ 0 →
      (j = t.height ∧ r = 0) ∨ (j + 1 ≤ t.height ∧ C (j + 1) r ≠ 0) := by
    intro j r hc
    by_cases he : j + 1 = t.height + 1 ∧ r = 0
    · exact .inl ⟨Nat.succ.inj he.1, he.2⟩
    · rw [setCell_other he] at hc
      exact .inr ⟨((h.live _ _).mp hc).1, hc⟩
  have hchild : ∀ i, setCell C (t.height + 1) 0 b t.height (0 * 64 + i) =
      update (fun _ => 0) 0 t.root i := by
    intro i
    rw [hlow le_rfl, Nat.zero_add, update_apply]
    split
    · next e => rw [e, h.root]
    · next e => exact not_not.mp fun hc => e (htop i hc)
  refine ⟨?_, ?_, ?_, by rw [hr, hh, hat], ?_, ?_, ?_⟩
  · intro q
    rw [hlow (Nat.zero_le _), h.base]
  · intro j r
    rw [hh, unmarked_iff]
    by_cases hj : j ≤ t.height
    · rw [hlow hj, h.live_iff, and_iff_right hj, and_iff_right (Nat.le_succ_of_le hj)]
    by_cases he : j = t.height + 1 ∧ r = 0
    · obtain ⟨rfl, rfl⟩ := he
      rw [hat]
      obtain ⟨x, hx⟩ := h.exists_key hroot
      exact iff_of_true hb ⟨le_rfl, x, hx, hfits x hx⟩
    rw [setCell_other he]
    refine iff_of_false (fun hc => hj ((h.live _ _).mp hc).1) ?_
    rintro ⟨hle, x, hx, hr⟩
    obtain rfl : j = t.height + 1 := by omega
    exact he ⟨rfl, by rw [← hr, hfits x hx]⟩
  · intro x hx
    rw [hh]
    exact ⟨Nat.succ_pos _, hfits x hx⟩
  · intro j r i hc hi
    obtain ⟨rfl, rfl⟩ | ⟨hj, hc⟩ := hcases hc
    · rw [hat, hheap, hnode, hchild]
    · rw [hlow hj, hlow (Nat.le_of_succ_le hj), hheap, h.slots j r i hc hi]
  · intro j r hc
    obtain ⟨rfl, rfl⟩ | ⟨hj, hc⟩ := hcases hc
    · rw [hat, hheap, hnode]
      refine (used_first ?_ fun i hi => ?_).symm
      · rw [hchild]
        exact hroot
      · rw [hchild, update_of_ne hi]
    · rw [hlow hj, hheap, h.count j r hc]
      exact congrArg used (funext fun i => (hlow (Nat.le_of_succ_le hj)).symm)
  · intro j i r r' hc he
    have hc' : setCell C (t.height + 1) 0 b (i + 1) r' ≠ 0 := he ▸ hc
    obtain ⟨rfl, rfl⟩ | ⟨hj, hc⟩ := hcases hc <;> obtain ⟨h1, rfl⟩ | ⟨hi, hc'⟩ := hcases hc'
    · exact ⟨h1.symm, rfl⟩
    · rw [hat, hlow hi] at he
      exact absurd he.symm (hfresh i r')
    · rw [h1, hat, hlow hj] at he
      exact absurd he (hfresh j r)
    · rw [hlow hj, hlow hi] at he
      exact h.inj _ _ _ _ hc he

theorem delRoot {h : ℕ} (hs : Shape t m C 0 (t.height + 1)) (hheight : t.height = h + 2)
    (hlive : t.root ≠ 0) (hone : (t.heap t.root).count = 1) (hfirst : (t.heap t.root).slots 0 ≠ 0)
    (hr : t'.root = (t.heap t.root).slots 0) (hh : t'.height = h + 1) (hheap : t'.heap = t.heap) :
    Shape t' m (setCell C (h + 2) 0 0) 0 (t'.height + 1) := by
  have hroot : t.root = C (h + 2) 0 := hheight ▸ hs.root
  rw [hroot] at hlive
  have hslot : ∀ i < 64, (t.heap t.root).slots i = C (h + 1) i := by
    intro i hi
    rw [hroot, hs.slots _ _ _ hlive hi, Nat.zero_add]
  -- all keys are under the first child
  have hfits : ∀ x, m x ≠ 0 → cellOf x (h + 1) = 0 := by
    intro x hx
    have hz : cellOf x (h + 2) = 0 := hheight ▸ (hs.fits x hx).2
    have hlt : cellOf x (h + 1) < 64 := by
      rw [← cellOf_slot x (h + 1), hz, Nat.zero_add]
      exact radixSlot_lt x (h + 1)
    by_contra hne
    refine (hs.live (h + 1) (cellOf x (h + 1))).mpr ⟨by omega, .inl ⟨x, hx, rfl⟩⟩ ?_
    rw [hroot, hs.count _ _ hlive] at hone
    have := used_one hone (by rwa [← hslot 0 (by decide)]) hlt hne
    rwa [Nat.zero_add] at this
  have hat : ∀ j r, setCell C (h + 2) 0 0 j r ≠ 0 ↔ j ≤ h + 1 ∧ C j r ≠ 0 := by
    intro j r
    by_cases he : j = h + 2 ∧ r = 0
    · rw [setCell, if_pos he]
      exact iff_of_false (absurd rfl) fun hn => by omega
    rw [setCell_other he]
    refine ⟨fun hc => ⟨?_, hc⟩, fun hc => hc.2⟩
    obtain ⟨hle, x, hx, hxr⟩ := hs.live_iff.mp hc
    by_contra hn
    obtain rfl : j = h + 2 := by omega
    exact he ⟨rfl, by rw [← hxr, ← hheight]; exact (hs.fits x hx).2⟩
  have hlow : ∀ {j r}, j ≤ h + 1 → setCell C (h + 2) 0 0 j r = C j r := fun hj =>
    setCell_other (by omega)
  refine ⟨?_, ?_, ?_, ?_, ?_, ?_, ?_⟩
  · intro q
    rw [hlow (Nat.zero_le _), hs.base]
  · intro j r
    rw [hat, hs.live_iff, hh, unmarked_iff]
    exact and_congr_right fun hj => and_iff_right (by omega)
  · intro x hx
    rw [hh]
    exact ⟨Nat.succ_pos _, hfits x hx⟩
  · rw [hr, hh, hlow le_rfl, hslot 0 (by decide)]
  · intro j r i hc hi
    obtain ⟨hj, hc⟩ := (hat _ _).mp hc
    rw [hlow hj, hlow (Nat.le_of_succ_le hj), hheap, hs.slots j r i hc hi]
  · intro j r hc
    obtain ⟨hj, hc⟩ := (hat _ _).mp hc
    rw [hlow hj, hheap, hs.count j r hc]
    exact congrArg used (funext fun i => (hlow (Nat.le_of_succ_le hj)).symm)
  intro j i r r' hc he
  obtain ⟨hj, hc1⟩ := (hat _ _).mp hc
  obtain ⟨hi, -⟩ := (hat _ _).mp (he ▸ hc)
  rw [hlow hj, hlow hi] at he
  exact hs.inj _ _ _ _ hc1 he

end Shape

end AvoryOS.Radix
