import AvoryOS.Radix.Map
import Mathlib.Algebra.BigOperators.Group.List.Basic
import Mathlib.Data.List.Flatten

/-!
# Iteration and validation

Iteration visits the keys under a node in ascending order, and validation counts the nodes and
the keys under it.  Both follow the tree from a node to the nodes in its slots, so the keys and
the nodes under a cell are given as lists in the same order.
-/

namespace AvoryOS.Radix

open Function List Nat

/-! ## Loops that end early -/

section

variable {σ : Type}

theorem forSlots_congr {f g : ℕ → σ → Bool × σ} {l : List ℕ} (h : ∀ i ∈ l, ∀ s, f i s = g i s)
    (s : σ) : forSlots f l s = forSlots g l s := by
  induction l generalizing s with
  | nil => rfl
  | cons i l ih =>
    rw [forSlots, forSlots, h i mem_cons_self]
    split
    · rfl
    · exact ih (fun j hj => h j (mem_cons_of_mem i hj)) _

theorem forSlots_append (f : ℕ → σ → Bool × σ) (l l' : List ℕ) (s : σ) : forSlots f (l ++ l') s =
      match forSlots f l s with
      | (false, s') => (false, s')
      | (true, s') => forSlots f l' s' := by
  induction l generalizing s with
  | nil => rfl
  | cons i l ih =>
    rw [cons_append, forSlots, forSlots]
    split
    · rfl
    · exact ih _

theorem forSlots_flatMap (f : ℕ → σ → Bool × σ) (g : ℕ → List ℕ) (l : List ℕ) (s : σ) :
    forSlots f (l.flatMap g) s = forSlots (fun i s => forSlots f (g i) s) l s := by
  induction l generalizing s with
  | nil => rfl
  | cons i l ih =>
    rw [flatMap_cons, forSlots_append, forSlots]
    cases forSlots f (g i) s with
    | mk b s' =>
      cases b with
      | false => rfl
      | true => exact ih s'

end

/-! ## What is under a cell -/

/-- The keys of `m` under the cell `(l, q)`. -/
def keysUnder (m : ℕ → ℕ) : ℕ → ℕ → List ℕ
  | 0, q => if m q = 0 then [] else [q]
  | l + 1, q => (List.range 64).flatMap fun i => keysUnder m l (q * 64 + i)

/-- The nodes under the cell `(l, q)`, by their cells. -/
def nodesUnder (C : ℕ → ℕ → ℕ) : ℕ → ℕ → List (ℕ × ℕ)
  | 0, _ => []
  | l + 1, q =>
    if C (l + 1) q = 0 then []
    else (l, q) :: (List.range 64).flatMap fun i => nodesUnder C l (q * 64 + i)

variable {m : ℕ → ℕ} {l q : ℕ}

theorem mem_keysUnder {k : ℕ} : k ∈ keysUnder m l q ↔ m k ≠ 0 ∧ cellOf k l = q := by
  induction l generalizing q with
  | zero =>
    rw [keysUnder, cellOf_zero]
    split
    · next h =>
      refine iff_of_false not_mem_nil ?_
      rintro ⟨h1, rfl⟩
      exact h1 h
    · next h =>
      rw [mem_singleton]
      exact ⟨fun e => ⟨e ▸ h, e⟩, fun e => e.2⟩
  | succ l ih =>
    rw [keysUnder, mem_flatMap, cellOf_succ]
    constructor
    · rintro ⟨i, hi, hk⟩
      obtain ⟨h1, h2⟩ := ih.mp hk
      have := mem_range.mp hi
      exact ⟨h1, by omega⟩
    · rintro ⟨h1, rfl⟩
      refine ⟨cellOf k l % 64, mem_range.mpr (mod_lt _ (by decide)), ih.mpr ⟨h1, ?_⟩⟩
      omega

theorem pairwise_keysUnder (m : ℕ → ℕ) (l q : ℕ) : (keysUnder m l q).Pairwise (· < ·) := by
  induction l generalizing q with
  | zero =>
    rw [keysUnder]
    split
    · exact Pairwise.nil
    · exact pairwise_singleton _ _
  | succ l ih =>
    rw [keysUnder, pairwise_flatMap]
    refine ⟨fun i _ => ih _, pairwise_lt_range.imp fun {i j} hij x hx y hy => ?_⟩
    have h1 := (mem_keysUnder.mp hx).2
    have h2 := (mem_keysUnder.mp hy).2
    refine lt_of_div_lt_div (c := 64 ^ l) ?_
    change cellOf x l < cellOf y l
    omega

section

variable {t : Tree} {C : ℕ → ℕ → ℕ}

section

variable (h : Shape t m C 0 (t.height + 1))
include h

theorem Shape.above {j r : ℕ} (hc : C j r ≠ 0)
    (hj : j ≤ l) (hl : l ≤ t.height) : C l (r / 64 ^ (l - j)) ≠ 0 := by
  obtain ⟨-, x, hx, rfl⟩ := h.live_iff.mp hc
  refine h.live_iff.mpr ⟨hl, x, hx, ?_⟩
  rw [cellOf, cellOf, Nat.div_div_eq_div_mul, ← pow_add, Nat.add_sub_cancel' hj]

theorem Shape.mem_nodesUnder {j r : ℕ} (hl : l ≤ t.height) :
    (j, r) ∈ nodesUnder C l q ↔ j < l ∧ C (j + 1) r ≠ 0 ∧ r / 64 ^ (l - (j + 1)) = q := by
  induction l generalizing q with
  | zero => exact iff_of_false not_mem_nil fun h => not_lt_zero j h.1
  | succ l ih =>
    have hdiv : ∀ {j}, j < l → r / 64 ^ (l + 1 - (j + 1)) = r / 64 ^ (l - (j + 1)) / 64 := by
      intro j hj
      rw [Nat.div_div_eq_div_mul, ← pow_succ]
      congr 2
      omega
    rw [nodesUnder]
    split
    · next hz =>
      refine iff_of_false not_mem_nil fun ⟨h1, h2, h3⟩ => ?_
      have := h.above h2 h1 hl
      rw [h3] at this
      exact this hz
    next hz =>
    rw [mem_cons, mem_flatMap, Prod.mk.injEq]
    constructor
    · rintro (⟨rfl, rfl⟩ | ⟨i, hi, hm⟩)
      · exact ⟨lt_succ_self _, hz, by rw [Nat.sub_self, pow_zero, Nat.div_one]⟩
      obtain ⟨h1, h2, h3⟩ := (ih (le_of_succ_le hl)).mp hm
      have := mem_range.mp hi
      exact ⟨by omega, h2, by rw [hdiv h1]; omega⟩
    rintro ⟨h1, h2, h3⟩
    by_cases hj : j = l
    · subst hj
      rw [Nat.sub_self, pow_zero, Nat.div_one] at h3
      exact .inl ⟨rfl, h3⟩
    have hj : j < l := by omega
    rw [hdiv hj] at h3
    refine .inr ⟨r / 64 ^ (l - (j + 1)) % 64, mem_range.mpr (mod_lt _ (by decide)),
      (ih (le_of_succ_le hl)).mpr ⟨hj, h2, ?_⟩⟩
    omega

theorem Shape.nodup_nodesUnder (hl : l ≤ t.height) : (nodesUnder C l q).Nodup := by
  induction l generalizing q with
  | zero => exact nodup_nil
  | succ l ih =>
    have hl' := le_of_succ_le hl
    rw [nodesUnder]
    split
    · exact nodup_nil
    refine nodup_cons.mpr ⟨fun hm => ?_, nodup_flatMap.mpr ⟨fun i _ => ih hl', ?_⟩⟩
    · obtain ⟨i, -, hm⟩ := mem_flatMap.mp hm
      exact lt_irrefl l ((h.mem_nodesUnder hl').mp hm).1
    refine pairwise_lt_range.imp fun {i j} hij => ?_
    rintro ⟨a, b⟩ ha hb
    have h1 := ((h.mem_nodesUnder hl').mp ha).2.2
    have h2 := ((h.mem_nodesUnder hl').mp hb).2.2
    omega

theorem Shape.keysUnder_nil (hl : l ≤ t.height) (hz : C l q = 0) : keysUnder m l q = [] := by
  refine eq_nil_iff_forall_not_mem.mpr fun k hk => ?_
  exact h.live_iff.mpr ⟨hl, k, mem_keysUnder.mp hk⟩ hz

end

/-! ## The two walks -/

theorem or_shift (q i l : ℕ) (hi : i < 64) :
    q * 64 ^ (l + 1) ||| i <<< (l * 6) = (q * 64 + i) * 64 ^ l := by
  have hlt : i <<< (l * 6) < 2 ^ ((l + 1) * 6) := by
    rw [shiftLeft_eq, add_mul, pow_add, mul_comm i]
    exact mul_lt_mul_of_pos_left hi (Nat.pow_pos (by decide))
  have h64 : ∀ j, 64 ^ j = 2 ^ (j * 6) := fun j => by
    rw [mul_comm, pow_mul]
    rfl
  rw [h64, ← shiftLeft_eq, ← shiftLeft_add_eq_or_of_lt hlt, shiftLeft_eq, shiftLeft_eq, h64]
  ring

/-- **Iteration under a node** visits the keys of the range that are under it, in order. -/
theorem Shape.iterNode_eq {σ : Type} (h : Shape t m C 0 (t.height + 1))
    (hw : ∀ x, m x ≠ 0 → x < 2 ^ 64) (first last : ℕ) (callback : ℕ → ℕ → σ → Bool × σ)
    (hc : C (l + 1) q ≠ 0) (s : σ) :
    iterNode t first last callback l (C (l + 1) q) (q * 64 ^ (l + 1)) s =
      forSlots (fun k s => callback k (m k) s)
        ((keysUnder m (l + 1) q).filter fun k => first ≤ k ∧ k ≤ last) s := by
  induction l generalizing q s with
  | zero =>
    rw [keysUnder, filter_flatMap, forSlots_flatMap]
    refine forSlots_congr (fun i hi s => ?_) s
    have hi := mem_range.mp hi
    rw [h.slots _ _ _ hc hi, h.base, keysUnder]
    have hkey : q * 64 ^ (0 + 1) ||| i = q * 64 + i := by
      have := or_shift q i 0 hi
      rwa [pow_zero, mul_one] at this
    rw [hkey]
    split
    · rfl
    rw [filter_singleton]
    by_cases hr : first ≤ q * 64 + i ∧ q * 64 + i ≤ last
    · rw [if_pos hr, decide_eq_true hr]
      change _ = forSlots _ [q * 64 + i] s
      rw [forSlots]
      split
      · next e => exact e
      · next e => exact e
    · rw [if_neg hr, decide_eq_false hr]
      rfl
  | succ l ih =>
    rw [keysUnder, filter_flatMap, forSlots_flatMap]
    refine forSlots_congr (fun i hi s => ?_) s
    have hi := mem_range.mp hi
    rw [h.slots _ _ _ hc hi]
    split
    · next hz =>
      rw [h.keysUnder_nil (le_of_succ_le ((h.live _ _).mp hc).1) hz]
      rfl
    next hz =>
    -- a key under the child bounds the shifted slot
    obtain ⟨-, x, hx, he⟩ := h.live_iff.mp hz
    have hlt : i <<< ((l + 1) * 6) < 2 ^ 64 := by
      have h1 : (q * 64 + i) * 64 ^ (l + 1) ≤ x := by
        rw [← he]
        exact div_mul_le_self x _
      rw [← or_shift q i (l + 1) hi] at h1
      exact lt_of_le_of_lt (le_trans right_le_or h1) (hw x hx)
    rw [mod_eq_of_lt hlt, or_shift q i (l + 1) hi]
    exact ih hz s

theorem sumSlots_eq (node : Node) (f : ℕ → Option (ℕ × ℕ)) (A B : ℕ → ℕ) (l : List ℕ)
    (h : ∀ i ∈ l, node.slots i ≠ 0 → f (node.slots i) = some (A i, B i))
    (h0 : ∀ i ∈ l, node.slots i = 0 → A i = 0 ∧ B i = 0) : sumSlots node f l =
      some ((l.filter fun i => node.slots i ≠ 0).length, (l.map A).sum, (l.map B).sum) := by
  induction l with
  | nil => rfl
  | cons i l ih =>
    have ih := ih (fun j hj => h j (mem_cons_of_mem i hj)) fun j hj => h0 j (mem_cons_of_mem i hj)
    rw [sumSlots, ih, map_cons, map_cons, sum_cons, sum_cons]
    split
    · next hz =>
      obtain ⟨h1, h2⟩ := h0 i mem_cons_self hz
      rw [filter_cons_of_neg (by simp [hz]), h1, h2, zero_add, zero_add]
    · next hz =>
      rw [h i mem_cons_self hz, filter_cons_of_pos (by simp [hz]), length_cons]

/-- The number of slots in use is the node's count, and not zero. -/
theorem Shape.validate_count (h : Shape t m C 0 (t.height + 1)) (hc : C (l + 1) q ≠ 0) :
    (if ((List.range 64).filter fun i => (t.heap (C (l + 1) q)).slots i ≠ 0).length =
          (t.heap (C (l + 1) q)).count ∧
        ((List.range 64).filter fun i => (t.heap (C (l + 1) q)).slots i ≠ 0).length ≠ 0 then
      some (((List.range 64).map fun i => (nodesUnder C l (q * 64 + i)).length).sum + 1,
        ((List.range 64).map fun i => (keysUnder m l (q * 64 + i)).length).sum)
    else none) = some ((nodesUnder C (l + 1) q).length, (keysUnder m (l + 1) q).length) := by
  have hcount : ((range 64).filter fun i => (t.heap (C (l + 1) q)).slots i ≠ 0).length =
      (t.heap (C (l + 1) q)).count := by
    rw [h.count _ _ hc]
    refine congrArg length (filter_congr fun i hi => ?_)
    rw [h.slots _ _ _ hc (mem_range.mp hi)]
  have hne : (t.heap (C (l + 1) q)).count ≠ 0 := by
    rw [h.count _ _ hc, Ne, used_zero]
    intro hall
    obtain ⟨hl, x, hx, rfl⟩ := h.live_iff.mp hc
    refine h.live_iff.mpr ⟨le_of_succ_le hl, x, hx, rfl⟩ ?_
    rw [← cellOf_slot x l]
    exact hall _ (radixSlot_lt x l)
  rw [if_pos ⟨hcount, hcount ▸ hne⟩, nodesUnder, if_neg hc, keysUnder, length_cons,
    length_flatMap, length_flatMap]

/-- **Validation of a node** counts the nodes and the keys under it. -/
theorem Shape.validateNode_eq (h : Shape t m C 0 (t.height + 1)) (hc : C (l + 1) q ≠ 0) :
    validateNode t l (C (l + 1) q) =
      some ((nodesUnder C (l + 1) q).length, (keysUnder m (l + 1) q).length) := by
  induction l generalizing q with
  | zero =>
    have hsum := sumSlots_eq (t.heap (C 1 q)) (fun _ => some (0, 1))
      (fun i => (nodesUnder C 0 (q * 64 + i)).length)
      (fun i => (keysUnder m 0 (q * 64 + i)).length) (range 64)
      (fun i hi hne => by
        rw [h.slots _ _ _ hc (mem_range.mp hi), h.base] at hne
        rw [keysUnder, if_neg hne]
        rfl)
      (fun i hi hz => by
        rw [h.slots _ _ _ hc (mem_range.mp hi), h.base] at hz
        rw [keysUnder, if_pos hz]
        exact ⟨rfl, rfl⟩)
    rw [validateNode, hsum]
    exact h.validate_count hc
  | succ l ih =>
    have hle := le_of_succ_le ((h.live _ _).mp hc).1
    have hsum := sumSlots_eq (t.heap (C (l + 2) q)) (validateNode t l)
      (fun i => (nodesUnder C (l + 1) (q * 64 + i)).length)
      (fun i => (keysUnder m (l + 1) (q * 64 + i)).length) (range 64)
      (fun i hi hne => by
        rw [h.slots _ _ _ hc (mem_range.mp hi)] at hne ⊢
        exact ih hne)
      (fun i hi hz => by
        rw [h.slots _ _ _ hc (mem_range.mp hi)] at hz
        rw [nodesUnder, if_pos hz, h.keysUnder_nil hle hz]
        exact ⟨rfl, rfl⟩)
    rw [validateNode, hsum]
    exact h.validate_count hc

theorem Inv.validate (h : Inv t m) : validate t = true := by
  obtain ⟨C, hs, hn⟩ := h.cells
  rw [Radix.validate]
  split
  · next hr =>
    obtain ⟨hzero, hnodes⟩ := h.of_root_zero hr
    have hheight : t.height = 0 := by
      by_contra hne
      obtain ⟨x, hx, -⟩ := h.tight (pos_of_ne_zero hne)
      exact hx (hzero x)
    exact decide_eq_true ⟨hheight, hnodes, h.keys.eq_zero.mpr hzero⟩
  next hr =>
  obtain ⟨x, hx⟩ := hs.exists_key hr
  have hpos := (hs.fits x hx).1
  have hle := h.height_le
  have hentries : t.entries ≠ 0 := fun e => hx (h.keys.eq_zero.mp e x)
  rw [if_neg (by omega)]
  obtain ⟨n, hh⟩ : ∃ n, t.height = n + 1 := ⟨t.height - 1, by omega⟩
  have hroot : t.root = C (n + 1) 0 := hh ▸ hs.root
  have hval := hs.validateNode_eq (hroot ▸ hr)
  rw [← hroot] at hval
  rw [hh, Nat.add_sub_cancel, hval]
  refine decide_eq_true ⟨?_, ?_⟩
  swap
  · obtain ⟨ks, h1, h2⟩ := h.keys
    have hnd : (keysUnder m (n + 1) 0).Nodup := (pairwise_keysUnder m (n + 1) 0).imp ne_of_lt
    rw [← h2, ← toFinset_card_of_nodup hnd]
    congr 1
    ext k
    rw [mem_toFinset, mem_keysUnder, h1]
    exact ⟨fun hm => hm.1, fun hm => ⟨hm, hh ▸ (hs.fits k hm).2⟩⟩
  -- all nodes are under the root
  obtain ⟨ns, h1, h2⟩ := hn
  rw [← h2, ← toFinset_card_of_nodup (hs.nodup_nodesUnder (le_of_eq hh.symm))]
  congr 1
  ext ⟨l, q⟩
  rw [mem_toFinset, hs.mem_nodesUnder (le_of_eq hh.symm), h1]
  refine ⟨fun hm => hm.2.1, fun hc => ?_⟩
  have hlt := ((hs.live _ _).mp hc).1
  have habove := hs.above hc (l := n + 1) (by omega) (by omega)
  obtain ⟨-, y, hy, he⟩ := hs.live_iff.mp habove
  exact ⟨by omega, hc, by rw [← he, ← hh, (hs.fits y hy).2]⟩

/-- Iteration over a range visits its keys in ascending order. -/
theorem Inv.forEachRange {σ : Type} (h : Inv t m) (first last : ℕ)
    (callback : ℕ → ℕ → σ → Bool × σ) : ∃ ks : List ℕ, ks.Pairwise (· < ·) ∧
      (∀ k, k ∈ ks ↔ m k ≠ 0 ∧ first ≤ k ∧ k ≤ last) ∧
      ∀ s, forEachRange t first last callback s =
        if last < first then (false, s) else forSlots (fun k s => callback k (m k) s) ks s := by
  obtain ⟨C, hs, -⟩ := h.cells
  refine ⟨(keysUnder m t.height 0).filter fun k => first ≤ k ∧ k ≤ last,
    (pairwise_keysUnder m _ _).filter _, fun k => ?_, fun s => ?_⟩
  · rw [mem_filter, mem_keysUnder, decide_eq_true_eq]
    exact ⟨fun hm => ⟨hm.1.1, hm.2⟩, fun hm => ⟨⟨hm.1, (hs.fits k hm.1).2⟩, hm.2⟩⟩
  rw [Radix.forEachRange]
  split
  · rfl
  split
  · next hr =>
    have hnil : keysUnder m t.height 0 = [] := by
      refine hs.keysUnder_nil le_rfl ?_
      rw [← hs.root, hr]
    rw [hnil]
    rfl
  next hr =>
  obtain ⟨x, hx⟩ := hs.exists_key hr
  obtain ⟨n, hh⟩ : ∃ n, t.height = n + 1 := ⟨t.height - 1, by have := (hs.fits x hx).1; omega⟩
  have hroot : t.root = C (n + 1) 0 := hh ▸ hs.root
  have hiter := hs.iterNode_eq h.word first last callback (hroot ▸ hr) s
  rw [← hroot, zero_mul] at hiter
  rw [hh, Nat.add_sub_cancel, hiter]

end

/-! ## Runs -/

/-- A run of the tree, with the map: any keys, values and allocations. -/
inductive Run : Tree → (ℕ → ℕ) → Prop
  | init (heap : ℕ → Node) : Run (Tree.empty heap) fun _ => 0
  | insert {t : Tree} {m : ℕ → ℕ} (hr : Run t m) {k : ℕ} (v : ℕ) (hk : k < 2 ^ 64)
      {alloc : List ℕ} (hf : Fresh t alloc) :
      Run (t.run (insert t k v alloc).2) (if (insert t k v alloc).1 = .ok then update m k v else m)
  | replace {t : Tree} {m : ℕ → ℕ} (hr : Run t m) {k : ℕ} (v : ℕ) (hk : k < 2 ^ 64) :
      Run (t.run (replace t k v).2) (if v = 0 ∨ m k = 0 then m else update m k v)
  | delete {t : Tree} {m : ℕ → ℕ} (hr : Run t m) {k : ℕ} (hk : k < 2 ^ 64) :
      Run (t.run (delete t k).2) (update m k 0)

theorem Inv.insert {t : Tree} (h : Inv t m) {k v : ℕ} (hk : k < 2 ^ 64)
    {alloc : List ℕ} (hf : Fresh t alloc) : Inv (t.run (Radix.insert t k v alloc).2)
      (if (Radix.insert t k v alloc).1 = .ok then update m k v else m) := by
  obtain ⟨-, he⟩ | ⟨-, -, he⟩ | ⟨-, -, n, -, -, he⟩ | ⟨-, -, hok, hi⟩ := insert_spec h hk hf
  · rw [he]
    exact h
  · rw [he]
    exact h
  · rw [he]
    exact h.nomem hf n
  · rw [if_pos hok]
    exact hi

theorem Run.inv {t : Tree} (h : Run t m) : Inv t m := by
  induction h with
  | init heap => exact Inv.empty heap
  | insert _ v hk hf ih => exact ih.insert hk hf
  | replace _ v hk ih => exact (replace_spec ih hk).2
  | delete _ hk ih => exact (delete_spec ih hk).2

structure RefinesMap (t : Tree) (m : ℕ → ℕ) : Prop where
  lookup : ∀ k, k < 2 ^ 64 → lookup t k = m k
  /-- A null value and a key that is there are refused. -/
  refused : ∀ k v alloc, k < 2 ^ 64 → Fresh t alloc → ((insert t k v alloc).1 = .einval ↔ v = 0) ∧
    ((insert t k v alloc).1 = .eexist ↔ v ≠ 0 ∧ m k ≠ 0)
  /-- There is no shortage of memory with twenty nodes. -/
  enomem : ∀ k v alloc, k < 2 ^ 64 → Fresh t alloc → (insert t k v alloc).1 = .enomem →
    alloc.length < 20
  /-- An insertion that fails leaves the tree as it was. -/
  failed : ∀ k v alloc, k < 2 ^ 64 → Fresh t alloc → (insert t k v alloc).1 ≠ .ok →
    (t.run (insert t k v alloc).2).height = t.height ∧
    (t.run (insert t k v alloc).2).entries = t.entries ∧
    (t.run (insert t k v alloc).2).nodes = t.nodes ∧
    ∀ x, x < 2 ^ 64 → Radix.lookup (t.run (insert t k v alloc).2) x = m x
  replace : ∀ k v, k < 2 ^ 64 → (replace t k v).1 = if v = 0 then 0 else m k
  delete : ∀ k, k < 2 ^ 64 → (delete t k).1 = m k
  validate : validate t = true
  entries : ∃ ks : Finset ℕ, (∀ k, k ∈ ks ↔ m k ≠ 0) ∧ t.entries = ks.card
  /-- Iteration visits the keys of the range that are there, in ascending order. -/
  range : ∀ (σ : Type) (first last : ℕ) (callback : ℕ → ℕ → σ → Bool × σ),
    ∃ ks : List ℕ, ks.Pairwise (· < ·) ∧ (∀ k, k ∈ ks ↔ m k ≠ 0 ∧ first ≤ k ∧ k ≤ last) ∧
      ∀ s, forEachRange t first last callback s =
        if last < first then (false, s) else forSlots (fun k s => callback k (m k) s) ks s

/-- **The radix tree is a finite map**, after every run. -/
theorem radix_refines_map {t : Tree} {m : ℕ → ℕ} (hr : Run t m) : RefinesMap t m where
  lookup k hk := hr.inv.lookup_eq hk
  refused k v alloc hk hf := by
    obtain ⟨h1, he⟩ | ⟨h1, h2, he⟩ | ⟨h1, h2, n, -, -, he⟩ | ⟨h1, h2, hok, -⟩ :=
      insert_spec hr.inv hk hf
    · rw [he]
      simp [h1]
    · rw [he]
      simp [h1, h2]
    · rw [he]
      simp [h1, h2]
    · rw [hok]
      simp [h1, h2]
  enomem k v alloc hk hf he := by
    obtain ⟨-, hi⟩ | ⟨-, -, hi⟩ | ⟨-, -, n, h1, h2, hi⟩ | ⟨-, -, hi, -⟩ := insert_spec hr.inv hk hf
    · rw [hi] at he
      cases he
    · rw [hi] at he
      cases he
    · omega
    · rw [hi] at he
      cases he
  failed k v alloc hk hf hne := by
    have hinv := hr.inv.insert (v := v) hk hf
    rw [if_neg hne] at hinv
    refine ⟨?_, ?_, ?_, fun x hx => hinv.lookup_eq hx⟩
    all_goals
      obtain ⟨-, hi⟩ | ⟨-, -, hi⟩ | ⟨-, -, n, -, -, hi⟩ | ⟨-, -, hi, -⟩ := insert_spec hr.inv hk hf
      · rw [hi]
        rfl
      · rw [hi]
        rfl
      · rw [hi]
        rw [run_clear]
      · exact absurd hi hne
  replace k v hk := (replace_spec hr.inv hk).1
  delete k hk := (delete_spec hr.inv hk).1
  validate := hr.inv.validate
  entries := by
    obtain ⟨ks, h1, h2⟩ := hr.inv.keys
    exact ⟨ks, h1, h2.symm⟩
  range σ first last callback := hr.inv.forEachRange first last callback

theorem not_owned_empty {heap : ℕ → Node} {b : ℕ} : ¬Owned (Tree.empty heap) l b := by
  intro h
  induction h with
  | root h => exact h rfl
  | child _ _ _ ih => exact ih

theorem run_first {k : ℕ} (v : ℕ) (hk : k < 2 ^ 64) {alloc : List ℕ}
    (ha : (∀ b ∈ alloc, b ≠ 0) ∧ alloc.Nodup)
    (hok : (insert (Tree.empty fun _ => Node.zero) k v alloc).1 = .ok) :
    Run ((Tree.empty fun _ => Node.zero).run (insert (Tree.empty fun _ => Node.zero) k v alloc).2)
      (update (fun _ => 0) k v) := by
  have hr := (Run.init fun _ => Node.zero).insert v hk ⟨ha.1, fun _ _ _ => not_owned_empty, ha.2⟩
  rwa [if_pos hok] at hr

/-- Two keys under three nodes, the first of them deleted. -/
theorem radix_refines_map_two : ∃ t m, Run t m ∧ t.height = 3 ∧ m 5001 = 9 ∧
    lookup t 5001 = 9 ∧ lookup t 5000 = 0 := by
  obtain ⟨t, ht⟩ : ∃ t, t = (Tree.empty fun _ => Node.zero).run
    (insert (Tree.empty fun _ => Node.zero) 5000 7 [1, 2, 3]).2 := ⟨_, rfl⟩
  have h1 := ht ▸ run_first 7 (by decide : 5000 < 2 ^ 64) (by decide) (by decide +kernel)
  have hf' : Fresh t [] := ⟨by simp, by simp, nodup_nil⟩
  have h2 := h1.insert 9 (by decide : 5001 < 2 ^ 64) hf'
  rw [if_pos (by rw [ht]; decide +kernel)] at h2
  have h3 := h2.delete (by decide : 5000 < 2 ^ 64)
  have hlookup := (radix_refines_map h3).lookup
  refine ⟨_, _, h3, by rw [ht]; decide +kernel, rfl, ?_, ?_⟩
  · rw [hlookup 5001 (by decide)]
    rfl
  · rw [hlookup 5000 (by decide)]
    rfl

/-! ## The size of a tree -/

theorem Inv.height_mono {t t' : Tree} {m' : ℕ → ℕ} (h : Inv t m) (h' : Inv t' m')
    (hkeys : ∀ x, m x ≠ 0 → m' x ≠ 0) : t.height ≤ t'.height := by
  by_contra hlt
  obtain ⟨x, hx, hheight⟩ := h.tight (by omega)
  obtain ⟨C, hs, -⟩ := h'.cells
  obtain ⟨h0, hfit⟩ := hs.fits x (hkeys x hx)
  exact hlt (hheight ▸ (requiredHeight_le_iff (h.word x hx) h0).mpr hfit)

/-- **The size of a tree depends on its keys only**: trees with the same keys have the same height
and as many nodes, whatever was inserted and deleted before. -/
theorem radix_canonical {t t' : Tree} {m m' : ℕ → ℕ} (hr : Run t m) (hr' : Run t' m')
    (hkeys : ∀ x, m x ≠ 0 ↔ m' x ≠ 0) :
    t.height = t'.height ∧ t.nodes = t'.nodes ∧ t.entries = t'.entries := by
  have hi := hr.inv
  have hi' := hr'.inv
  have hheight : t.height = t'.height :=
    le_antisymm (hi.height_mono hi' fun x => (hkeys x).mp)
      (hi'.height_mono hi fun x => (hkeys x).mpr)
  obtain ⟨C, hs, ns, hns, hnodes⟩ := hi.cells
  obtain ⟨C', hs', ns', hns', hnodes'⟩ := hi'.cells
  obtain ⟨ks, hks, hentries⟩ := hi.keys
  obtain ⟨ks', hks', hentries'⟩ := hi'.keys
  refine ⟨hheight, ?_, ?_⟩
  · rw [← hnodes, ← hnodes']
    congr 1
    ext ⟨l, q⟩
    simp only [hns, hns', hs.live_iff, hs'.live_iff, hheight, hkeys]
  · rw [← hentries, ← hentries']
    congr 1
    ext x
    rw [hks, hks', hkeys]

/-- A key goes in and out again, and no node is left. -/
theorem radix_canonical_emptied :
    ∃ t, Run t (update (update (fun _ => 0) 5 7) 5 0) ∧ t.nodes = 0 := by
  have hok : (insert (Tree.empty fun _ => Node.zero) 5 7 [1]).1 = .ok := by decide +kernel
  have hr' := (run_first 7 (by decide : 5 < 2 ^ 64) (by decide) hok).delete (k := 5) (by decide)
  exact ⟨_, hr', (radix_canonical hr' (.init fun _ => Node.zero) (by simp)).2.1⟩

end AvoryOS.Radix
