import AvoryOS.Radix.Cells

/-!
# The operations of the radix tree

The tree keeps a map from keys to values.  Insertion puts in the nodes that are missing on the
way of the key, from the top down, and a failed allocation leaves the tree as it was.  Deletion
takes out the nodes that have become empty, from the leaf up, and then the roots that have only
their first child.
-/

namespace AvoryOS.Radix

open Function List

/-! ## Stores -/

theorem run_append (t : Tree) (v w : List Write) : t.run (v ++ w) = (t.run v).run w :=
  foldl_append

theorem run_slot_count (t : Tree) (b i v n : ℕ) (ws : List Write) :
    t.run (.slot b i v :: .count b n :: ws) = (setSlot t b i v n).run ws := by
  have h : (t.write (.slot b i v)).write (.count b n) = setSlot t b i v n := by
    simp [Tree.write, Tree.setNode, setSlot]
  rw [← h]
  rfl

theorem run_clear (t : Tree) (fs : List ℕ) :
    t.run (fs.map .clear) = { t with heap := fun a => if a ∈ fs then Node.zero else t.heap a } := by
  induction fs generalizing t with
  | nil => rfl
  | cons b fs ih =>
    change (t.write (.clear b)).run _ = _
    rw [ih]
    congr 1
    funext a
    change (if a ∈ fs then Node.zero else update t.heap b Node.zero a) = _
    rw [update_apply]
    by_cases h1 : a ∈ fs <;> simp [h1]

variable {t' : Tree}

/-- What stores do to the nodes does not depend on the rest of the tree. -/
theorem heap_run_congr {t : Tree} (h : t'.heap = t.heap) (ws : List Write) :
    (t'.run ws).heap = (t.run ws).heap := by
  induction ws generalizing t t' with
  | nil => exact h
  | cons w ws ih =>
    refine ih ?_
    cases w <;> simp [Tree.write, Tree.setNode, h]

/-! ## Counting -/

def Cells (C : ℕ → ℕ → ℕ) (n : ℕ) : Prop :=
  ∃ ns : Finset (ℕ × ℕ), (∀ l q, (l, q) ∈ ns ↔ C (l + 1) q ≠ 0) ∧ ns.card = n

def Keys (m : ℕ → ℕ) (n : ℕ) : Prop := ∃ ks : Finset ℕ, (∀ k, k ∈ ks ↔ m k ≠ 0) ∧ ks.card = n

section

variable {C : ℕ → ℕ → ℕ} {m : ℕ → ℕ} {n l q k v : ℕ}

open Finset

theorem Cells.set (h : Cells C n) (h0 : C (l + 1) q = 0) (hv : v ≠ 0) :
    Cells (setCell C (l + 1) q v) (n + 1) := by
  obtain ⟨ns, h1, h2⟩ := h
  refine ⟨Insert.insert (l, q) ns, fun j r => ?_, ?_⟩
  · rw [mem_insert, h1, Prod.mk.injEq]
    by_cases he : j = l ∧ r = q
    · obtain ⟨rfl, rfl⟩ := he
      rw [setCell_self]
      exact iff_of_true (.inl ⟨rfl, rfl⟩) hv
    · rw [or_iff_right he, setCell_other (by omega)]
  · rw [card_insert_of_notMem fun hm => (h1 l q).mp hm h0, h2]

theorem Cells.unset (h : Cells C n) (h0 : C (l + 1) q ≠ 0) :
    Cells (setCell C (l + 1) q 0) (n - 1) := by
  obtain ⟨ns, h1, h2⟩ := h
  refine ⟨ns.erase (l, q), fun j r => ?_, ?_⟩
  · rw [mem_erase, h1, Ne, Prod.mk.injEq]
    by_cases he : j = l ∧ r = q
    · obtain ⟨rfl, rfl⟩ := he
      rw [setCell_self]
      exact iff_of_false (fun h => h.1 ⟨rfl, rfl⟩) fun h => h rfl
    · rw [and_iff_right he, setCell_other (by omega)]
  · rw [card_erase_of_mem ((h1 l q).mpr h0), h2]

theorem Cells.value (h : Cells C n) : Cells (setCell C 0 q v) n := by
  obtain ⟨ns, h1, h2⟩ := h
  refine ⟨ns, fun j r => ?_, h2⟩
  rw [h1, setCell_other (by omega)]

theorem Keys.set (h : Keys m n) (h0 : m k = 0) (hv : v ≠ 0) : Keys (update m k v) (n + 1) := by
  obtain ⟨ks, h1, h2⟩ := h
  refine ⟨Insert.insert k ks, fun x => ?_, ?_⟩
  · rw [mem_insert, h1, update_apply]
    split
    · next e => exact iff_of_true (.inl e) hv
    · next e => rw [or_iff_right e]
  · rw [card_insert_of_notMem fun hm => (h1 k).mp hm h0, h2]

theorem Keys.unset (h : Keys m n) (h0 : m k ≠ 0) : Keys (update m k 0) (n - 1) := by
  obtain ⟨ks, h1, h2⟩ := h
  refine ⟨ks.erase k, fun x => ?_, ?_⟩
  · rw [mem_erase, h1, update_apply]
    split
    · next e => exact iff_of_false (fun h => h.1 e) fun h => h rfl
    · next e => rw [and_iff_right e]
  · rw [card_erase_of_mem ((h1 k).mpr h0), h2]

theorem Keys.change (h : Keys m n) (h0 : m k ≠ 0) (hv : v ≠ 0) : Keys (update m k v) n := by
  obtain ⟨ks, h1, h2⟩ := h
  refine ⟨ks, fun x => ?_, h2⟩
  rw [h1, update_apply]
  split
  · next e => exact iff_of_true (e ▸ h0) hv
  · rfl

theorem Keys.eq_zero (h : Keys m n) : n = 0 ↔ ∀ k, m k = 0 := by
  obtain ⟨ks, h1, rfl⟩ := h
  rw [card_eq_zero, eq_empty_iff_forall_notMem]
  exact forall_congr' fun k => by rw [h1, not_not]

end

/-! ## Walks -/

variable {x l : ℕ}

namespace Shape

variable {t : Tree} {m : ℕ → ℕ} {C : ℕ → ℕ → ℕ} {k a : ℕ}

section

variable (h : Shape t m C k a)
include h

theorem down {j : ℕ} (hl : l ≤ t.height) (hj : j ≤ l)
    (hc : C l (cellOf x l) = 0) : C j (cellOf x j) = 0 := by
  by_contra hn
  have hup : ∀ i, j ≤ i → i ≤ t.height → C i (cellOf x i) ≠ 0 := by
    intro i hi
    induction i, hi using Nat.le_induction with
    | base => exact fun _ => hn
    | succ i _ ih =>
      intro hle
      rw [cellOf_succ]
      exact h.up (ih (Nat.le_of_succ_le hle)) hle
  exact hup l hj hl hc

theorem slot_eq (hc : C (l + 1) (cellOf x (l + 1)) ≠ 0) :
    (t.heap (C (l + 1) (cellOf x (l + 1)))).slots (radixSlot x l) = C l (cellOf x l) := by
  rw [h.slots _ _ _ hc (radixSlot_lt x l), cellOf_slot]

theorem descend_eq (hl : l + 1 ≤ t.height) (hc : C (l + 1) (cellOf x (l + 1)) ≠ 0) :
    descend t x l (C (l + 1) (cellOf x (l + 1))) = C 1 (cellOf x 1) := by
  induction l with
  | zero => rfl
  | succ l ih =>
    rw [descend, h.slot_eq hc]
    split
    · next hz => exact (h.down (Nat.le_of_succ_le hl) (by omega) hz).symm
    · next hz => exact ih (Nat.le_of_succ_le hl) hz

/-- The way of a key ends where a cell is missing, or at the leaf. -/
theorem attachPoint_spec (hl : l + 1 ≤ t.height) (hc : C (l + 1) (cellOf x (l + 1)) ≠ 0) :
    ∃ b, attachPoint t x l (C (l + 1) (cellOf x (l + 1))) = (b, C (b + 1) (cellOf x (b + 1))) ∧
      b ≤ l ∧ C (b + 1) (cellOf x (b + 1)) ≠ 0 ∧ (b ≠ 0 → C b (cellOf x b) = 0) := by
  induction l with
  | zero => exact ⟨0, rfl, le_rfl, hc, absurd rfl⟩
  | succ l ih =>
    rw [attachPoint, h.slot_eq hc]
    split
    · next hz => exact ⟨l + 1, rfl, le_rfl, hc, fun _ => hz⟩
    next hz =>
    obtain ⟨b, h1, h2, h3⟩ := ih (Nat.le_of_succ_le hl) hz
    exact ⟨b, h1, Nat.le_succ_of_le h2, h3⟩

theorem path_eq (hl : l + 1 ≤ t.height) (hc : C (l + 1) (cellOf x (l + 1)) ≠ 0) :
    path t x l (C (l + 1) (cellOf x (l + 1))) = if C 1 (cellOf x 1) = 0 then none
      else some ((range (l + 1)).map fun j => C (j + 1) (cellOf x (j + 1))) := by
  induction l with
  | zero => rw [if_neg hc]; rfl
  | succ l ih =>
    rw [path, h.slot_eq hc]
    split
    · next hz => rw [if_pos (h.down (Nat.le_of_succ_le hl) (by omega) hz)]
    next hz =>
    rw [ih (Nat.le_of_succ_le hl) hz, range_succ (n := l + 1), map_append]
    split <;> rfl

end

end Shape

/-! ## The invariant -/

/-- The tree `t` has the map `m`; a key with the value `0` is not there. -/
structure Inv (t : Tree) (m : ℕ → ℕ) : Prop where
  cells : ∃ C, Shape t m C 0 (t.height + 1) ∧ Cells C t.nodes
  keys : Keys m t.entries
  word : ∀ x, m x ≠ 0 → x < 2 ^ 64
  tight : 0 < t.height → ∃ x, m x ≠ 0 ∧ requiredHeight x = t.height

theorem Inv.empty (heap : ℕ → Node) : Inv (Tree.empty heap) fun _ => 0 where
  cells := ⟨_, Shape.empty, ∅, fun _ _ => iff_of_false (Finset.notMem_empty _) fun h => h rfl, rfl⟩
  keys := ⟨∅, fun _ => iff_of_false (Finset.notMem_empty _) fun h => h rfl, rfl⟩
  word _ h := absurd rfl h
  tight h := absurd h (Nat.lt_irrefl 0)

section

variable {t : Tree} {m : ℕ → ℕ} {C : ℕ → ℕ → ℕ} {k : ℕ}

section

variable (h : Shape t m C 0 (t.height + 1))
include h

theorem Shape.same (hh : t'.height = t.height)
    (hr : t'.root = t.root) (hheap : t'.heap = t.heap) : Shape t' m C 0 (t'.height + 1) := by
  rw [hh]
  exact h.frame hh hr fun l q _ => congrFun hheap _

/-- A tree with a root has a height, and its root is the highest cell of any key that fits. -/
theorem Shape.root_eq (hr : t.root ≠ 0) (hk : k < 2 ^ 64) (hle : requiredHeight k ≤ t.height) :
    t.height - 1 + 1 = t.height ∧ t.root = C (t.height - 1 + 1) (cellOf k (t.height - 1 + 1)) := by
  obtain ⟨x, hx⟩ := h.exists_key hr
  have hpos := (h.fits x hx).1
  have he : t.height - 1 + 1 = t.height := Nat.sub_add_cancel hpos
  rw [he, (requiredHeight_le_iff hk hpos).mp hle]
  exact ⟨rfl, h.root⟩

theorem Shape.lookup_eq (hk : k < 2 ^ 64) : lookup t k = m k := by
  rw [lookup]
  split
  · next hn =>
    -- a key that is there has a root above it, and fits
    by_contra hne
    have hm : m k ≠ 0 := Ne.symm hne
    have hfit := h.fits k hm
    have := h.root_ne_zero hm
    have := (requiredHeight_le_iff hk hfit.1).mpr hfit.2
    omega
  next hn =>
  obtain ⟨hr, hle⟩ := not_or.mp hn
  obtain ⟨he, hroot⟩ := h.root_eq hr hk (by omega)
  have hc : C (t.height - 1 + 1) (cellOf k (t.height - 1 + 1)) ≠ 0 := hroot ▸ hr
  have hdesc := h.descend_eq (Nat.le_of_eq he) hc
  rw [← hroot] at hdesc
  dsimp only
  rw [hdesc, ← h.base]
  split
  · next hz =>
    have := h.down (by omega) (Nat.zero_le 1) hz
    rw [cellOf_zero] at this
    exact this.symm
  · next hz => rw [h.slot_eq hz, cellOf_zero]

end

theorem Inv.height_le (h : Inv t m) : t.height ≤ 11 := by
  by_cases hz : t.height = 0
  · omega
  obtain ⟨x, hx, he⟩ := h.tight (Nat.pos_of_ne_zero hz)
  rw [← he]
  exact (requiredHeight_spec (h.word x hx)).2.1

theorem Inv.lookup_eq (h : Inv t m) (hk : k < 2 ^ 64) : lookup t k = m k := by
  obtain ⟨C, hs, -⟩ := h.cells
  exact hs.lookup_eq hk

end

/-! ## New nodes -/

/-- The nodes of a tree, with one more than their level. -/
inductive Owned (t : Tree) : ℕ → ℕ → Prop
  | root (h : t.root ≠ 0) : Owned t t.height t.root
  | child {l b i : ℕ} (h : Owned t (l + 2) b) (hi : i < 64) (hc : (t.heap b).slots i ≠ 0) :
      Owned t (l + 1) ((t.heap b).slots i)

/-- Addresses that an allocator may return: they are not null, not in use and not the same. -/
structure Fresh (t : Tree) (alloc : List ℕ) : Prop where
  pos : ∀ b ∈ alloc, b ≠ 0
  free : ∀ b ∈ alloc, ∀ l, ¬Owned t (l + 1) b
  nodup : alloc.Nodup

variable {alloc : List ℕ} {n : ℕ}

section

variable {t : Tree} {m : ℕ → ℕ} {C : ℕ → ℕ → ℕ} {k v : ℕ}

theorem Shape.owned (h : Shape t m C 0 (t.height + 1)) {q : ℕ} (hc : C (l + 1) q ≠ 0) :
    Owned t (l + 1) (C (l + 1) q) := by
  obtain ⟨hl, x, hx, rfl⟩ := h.live_iff.mp hc
  -- from the root down the way of the key
  obtain ⟨d, hd⟩ : ∃ d, t.height = l + 1 + d := ⟨t.height - (l + 1), by omega⟩
  induction d generalizing l with
  | zero =>
    have hroot := Owned.root (h.root_ne_zero hx)
    rw [h.root, ← (h.fits x hx).2, hd] at hroot
    exact hroot
  | succ d ih =>
    have hc' : C (l + 2) (cellOf x (l + 2)) ≠ 0 := h.live_iff.mpr ⟨by omega, x, hx, rfl⟩
    have hup := ih (by omega) hc' (by omega)
    rw [← h.slot_eq hc'] at hc ⊢
    exact .child hup (radixSlot_lt x _) hc

theorem Fresh.not_cell (hf : Fresh t alloc) (h : Shape t m C 0 (t.height + 1))
    {b : ℕ} (hb : b ∈ alloc) (l q : ℕ) : C (l + 1) q ≠ b := by
  intro e
  have hc : C (l + 1) q ≠ 0 := e ▸ hf.pos b hb
  exact hf.free b hb l (e ▸ h.owned hc)

theorem chain_cons (k v b : ℕ) (fs : List ℕ) : chain k v (b :: fs) =
      .slot b (radixSlot k fs.length) (fs.headD v) :: .count b 1 :: chain k v fs := by
  cases fs <;> rfl

/-- Cleared nodes that are not in the tree. -/
structure Spare (t : Tree) (C : ℕ → ℕ → ℕ) (fs : List ℕ) : Prop where
  pos : ∀ b ∈ fs, b ≠ 0
  zero : ∀ b ∈ fs, t.heap b = Node.zero
  free : ∀ b ∈ fs, ∀ l q, C (l + 1) q ≠ b
  nodup : fs.Nodup

/-- **A branch is put in**, node by node from the top: `fs` are its nodes, and `P` is the node
that gets it. -/
theorem Shape.grow (fs : List ℕ) (h : Shape t m C k (fs.length + 1))
    (hl : fs.length < t.height) (hP : C (fs.length + 1) (cellOf k (fs.length + 1)) ≠ 0)
    (hnone : C fs.length (cellOf k fs.length) = 0) (hs : Spare t C fs) (hv : v ≠ 0)
    (hfit : cellOf k t.height = 0) (hn : Cells C n) {P : ℕ}
    (hPe : P = C (fs.length + 1) (cellOf k (fs.length + 1)))
    (ht : t' = t.run (.slot P (radixSlot k fs.length) (fs.headD v) ::
      .count P ((t.heap P).count + 1) :: chain k v fs)) :
    ∃ C', Shape t' (update m k v) C' 0 (t'.height + 1) ∧ Cells C' (n + fs.length) ∧
      t'.height = t.height ∧ t'.root = t.root := by
  rw [run_slot_count] at ht
  subst hPe
  induction fs generalizing t C n with
  | nil =>
    subst ht
    have hm : m k = 0 := (h.base k).symm.trans ((congrArg (C 0) (cellOf_zero k)).symm.trans hnone)
    exact ⟨_, h.addKey hl hP hm hv hfit, hn.value, rfl, rfl⟩
  | cons b fs ih =>
    obtain ⟨hb, hnd⟩ := nodup_cons.mp hs.nodup
    have hmem : ∀ {c}, c ∈ fs → c ∈ b :: fs := mem_cons_of_mem b
    have h1 := h.addNode hl hP hnone (hs.pos b mem_cons_self)
      (hs.free b mem_cons_self) (hs.zero b mem_cons_self)
    set P := C (fs.length + 2) (cellOf k (fs.length + 2))
    set t1 := setSlot t P (radixSlot k (fs.length + 1)) b ((t.heap P).count + 1)
    set C1 := setCell C (fs.length + 1) (cellOf k (fs.length + 1)) b
    have hheap : ∀ {c}, c ∈ b :: fs → t1.heap c = Node.zero := fun hc =>
      (update_of_ne (Ne.symm (hs.free _ hc _ _)) ..).trans (hs.zero _ hc)
    have hat : C1 (fs.length + 1) (cellOf k (fs.length + 1)) = b := setCell_self ..
    have hspare : Spare t1 C1 fs := by
      refine ⟨fun c hc => hs.pos c (hmem hc), fun c hc => hheap (hmem hc), ?_, hnd⟩
      intro c hc j r e
      by_cases hjr : j + 1 = fs.length + 1 ∧ r = cellOf k (fs.length + 1)
      · rw [hjr.1, hjr.2, hat] at e
        exact hb (e ▸ hc)
      · exact hs.free c (hmem hc) j r ((setCell_other hjr).symm.trans e)
    -- nothing is under the new node yet
    have hnone1 : C1 fs.length (cellOf k fs.length) = 0 := by
      rw [show C1 fs.length (cellOf k fs.length) = C fs.length (cellOf k fs.length) from
        setCell_other (fun e => Nat.ne_of_lt fs.length.lt_succ_self e.1)]
      exact h.down (Nat.le_of_lt hl) (Nat.le_succ _) hnone
    obtain ⟨C', h2, h3, h4, h5⟩ := ih h1 (Nat.lt_of_succ_lt hl)
      (by rw [hat]; exact hs.pos b mem_cons_self) hnone1 hspare hfit
      (hn.set hnone (hs.pos b mem_cons_self)) (by
        rw [ht, hat, headD_cons, length_cons, chain_cons, run_slot_count,
          show (t1.heap b).count + 1 = 1 by rw [hheap mem_cons_self]; rfl])
    refine ⟨C', h2, ?_, h4, h5⟩
    rw [length_cons, Nat.add_comm fs.length 1, ← Nat.add_assoc]
    exact h3

/-- **Nodes are put above the root**, each with the one below as its first child. -/
theorem Shape.wraps (fs : List ℕ) (h : Shape t m C 0 (t.height + 1)) (hr : t.root ≠ 0)
    (hs : Spare t C fs) (hn : Cells C n) (ht : t' = { t.run (wrap t.root fs) with
      root := fs.headD t.root, height := t.height + fs.length }) :
    ∃ C', Shape t' m C' 0 (t'.height + 1) ∧ Cells C' (n + fs.length) ∧
      (∀ b, b ∉ fs → t'.heap b = t.heap b) ∧
      (∀ b, b ∉ fs → (∀ l q, C (l + 1) q ≠ b) → ∀ l q, C' (l + 1) q ≠ b) ∧
      (fs ≠ [] → (t'.heap t'.root).count = 1) := by
  induction fs generalizing t C n t' with
  | nil =>
    subst ht
    exact ⟨C, h, hn, fun _ _ => rfl, fun _ _ hf => hf, absurd rfl⟩
  | cons b fs ih =>
    obtain ⟨hb, hnd⟩ := nodup_cons.mp hs.nodup
    have hmem : ∀ {c}, c ∈ fs → c ∈ b :: fs := mem_cons_of_mem b
    have hbf := hs.free b mem_cons_self
    set t0 := setSlot t b 0 (fs.headD t.root) 1 with ht0
    have hrest : ∀ c, c ≠ b → t0.heap c = t.heap c := fun c hc => update_of_ne hc ..
    have h₀ : Shape t0 m C 0 (t0.height + 1) := h.frame rfl rfl fun l q _ => hrest _ (hbf l q)
    have hs0 : Spare t0 C fs := ⟨fun c hc => hs.pos c (hmem hc),
      fun c hc => (hrest c fun e => hb (e ▸ hc)).trans (hs.zero c (hmem hc)),
      fun c hc => hs.free c (hmem hc), hnd⟩
    obtain ⟨C1, h1, h2, h3, h4, -⟩ := ih h₀ hr hs0 hn rfl
    set t1 : Tree := { t0.run (wrap t0.root fs) with
      root := fs.headD t0.root, height := t0.height + fs.length }
    have hnode : t1.heap b = ⟨update (fun _ => 0) 0 t1.root, 1⟩ := by
      rw [h3 b hb, ht0, setSlot, hs.zero b mem_cons_self]
      exact update_self ..
    have hroot : t1.root ≠ 0 := by
      cases fs with
      | nil => exact hr
      | cons c fs => exact hs.pos c (hmem mem_cons_self)
    have hheap : t'.heap = t1.heap := by
      rw [ht]
      rw [wrap, run_slot_count]
      rfl
    have hheight : t'.height = t1.height + 1 := by
      rw [ht]
      exact (Nat.add_assoc ..).symm
    have hb1 : ∀ j r, C1 (j + 1) r ≠ b := h4 b hb hbf
    have hz : C1 (t1.height + 1) 0 = 0 := by
      by_contra hc
      exact absurd ((h1.live _ _).mp hc).1 (Nat.not_succ_le_self _)
    refine ⟨_, h1.addRoot hroot (hs.pos b mem_cons_self) hb1 (by rw [ht]; rfl) hheight
      hheap hnode, ?_, ?_, ?_, ?_⟩
    · exact h2.set hz (hs.pos b mem_cons_self)
    · intro c hc
      obtain ⟨hcb, hcf⟩ := not_or.mp (fun e => hc (mem_cons.mpr e))
      rw [hheap, h3 c hcf, hrest c hcb]
    · intro c hc hfree j r
      obtain ⟨hcb, hcf⟩ := not_or.mp (fun e => hc (mem_cons.mpr e))
      by_cases hjr : j + 1 = t1.height + 1 ∧ r = 0
      · rw [setCell, if_pos hjr]
        exact Ne.symm hcb
      · rw [setCell_other hjr]
        exact h4 c hcf hfree j r
    · intro _
      rw [show t'.root = b by rw [ht]; rfl, hheap, hnode]

theorem Fresh.clear (hf : Fresh t alloc) (h : Shape t m C 0 (t.height + 1))
    {fs : List ℕ} (hsub : fs.Sublist alloc) (ht : t' = t.run (fs.map .clear)) :
    Shape t' m C 0 (t'.height + 1) ∧ Spare t' C fs ∧ t'.root = t.root ∧ t'.height = t.height := by
  have hfree := fun b hb => hf.not_cell h (hsub.subset (a := b) hb)
  rw [ht, run_clear]
  refine ⟨h.frame rfl rfl fun l q _ => if_neg fun hm => hfree _ hm l q rfl, ⟨fun b hb => ?_,
    fun b hb => if_pos hb, hfree, hf.nodup.sublist hsub⟩, rfl, rfl⟩
  exact hf.pos b (hsub.subset hb)

theorem Inv.nomem (h : Inv t m) (hf : Fresh t alloc) (n : ℕ) :
    Inv (t.run ((alloc.take n).map .clear)) m := by
  obtain ⟨C, hs, hn⟩ := h.cells
  obtain ⟨h1, -⟩ := hf.clear hs (take_sublist n alloc) rfl
  rw [run_clear] at h1 ⊢
  exact { h with cells := ⟨C, h1, hn⟩ }

theorem Inv.word_update (h : Inv t m) (hk : k < 2 ^ 64) (hx : update m k v x ≠ 0) : x < 2 ^ 64 := by
  by_cases hxk : x = k
  · exact hxk ▸ hk
  · rw [update_of_ne hxk] at hx
    exact h.word x hx

theorem Inv.of_shape (h : Inv t m) (hk : k < 2 ^ 64) (hm : m k = 0) (hv : v ≠ 0)
    (hs : ∃ C', Shape t' (update m k v) C' 0 (t'.height + 1) ∧ Cells C' t'.nodes)
    (he : t'.entries = t.entries + 1) (ht : t'.height = t.height ∨ t'.height = requiredHeight k) :
    Inv t' (update m k v) := by
  have hkey : update m k v k ≠ 0 := by rwa [update_self]
  refine ⟨hs, he ▸ h.keys.set hm hv, fun x => h.word_update hk, fun hpos => ?_⟩
  rcases ht with ht | ht
  · obtain ⟨x, hx, hr⟩ := h.tight (ht ▸ hpos)
    have hxk : x ≠ k := fun e => hx (e ▸ hm)
    exact ⟨x, by rwa [update_of_ne hxk], ht ▸ hr⟩
  · exact ⟨k, hkey, ht.symm⟩

theorem Inv.of_root_zero (h : Inv t m) (hroot : t.root = 0) : (∀ x, m x = 0) ∧ t.nodes = 0 := by
  obtain ⟨C, hs, ns, h1, h2⟩ := h.cells
  have hzero : ∀ x, m x = 0 := fun x => not_not.mp fun hx => hs.root_ne_zero hx hroot
  refine ⟨hzero, ?_⟩
  rw [← h2, Finset.card_eq_zero, Finset.eq_empty_iff_forall_notMem]
  rintro ⟨l, q⟩ hm
  obtain ⟨-, x, hx, -⟩ := hs.live_iff.mp ((h1 l q).mp hm)
  exact hx (hzero x)

theorem Inv.insertEmpty (h : Inv t m) (hroot : t.root = 0) (hk : k < 2 ^ 64) (hv : v ≠ 0)
    {fresh : List ℕ} (hf : Fresh t alloc) (hsub : fresh.Sublist alloc)
    (hlen : fresh.length = requiredHeight k) : Inv (t.run (fresh.map .clear ++ chain k v fresh ++
      [.root (fresh.headD 0), .height (requiredHeight k), .nodes (t.nodes + requiredHeight k),
        .entries (t.entries + 1)])) (update m k v) := by
  obtain ⟨C, hs, -⟩ := h.cells
  obtain ⟨hr1, -, hr3, -⟩ := requiredHeight_spec hk
  obtain ⟨hempty, hnodes⟩ := h.of_root_zero hroot
  have hzero : m = fun _ => 0 := funext hempty
  obtain ⟨-, hspare, -⟩ := hf.clear hs hsub rfl
  rcases fresh with _ | ⟨b, fs⟩
  · exact absurd hlen (by rw [length_nil]; omega)
  rw [← hlen] at hr3 ⊢
  obtain ⟨hb, hnd⟩ := nodup_cons.mp hspare.nodup
  -- the new root first, although the code stores it last
  set t0 : Tree := { t.run ((b :: fs).map .clear) with root := b, height := fs.length + 1 }
  have hb0 := hspare.pos b mem_cons_self
  have hbz : t0.heap b = Node.zero := hspare.zero b mem_cons_self
  have h₀ : Shape t0 (fun _ => 0) _ k (fs.length + 1) := Shape.newRoot hr3 hb0 rfl rfl hbz
  set C0 := setCell (fun _ _ => 0) (fs.length + 1) 0 b
  have hat : C0 (fs.length + 1) (cellOf k (fs.length + 1)) = b := by
    rw [show cellOf k (fs.length + 1) = 0 from hr3]
    exact setCell_self ..
  have hs0 : Spare t0 C0 fs := by
    refine ⟨fun c hc => hspare.pos c (mem_cons_of_mem b hc),
      fun c hc => hspare.zero c (mem_cons_of_mem b hc), fun c hc l q e => ?_, hnd⟩
    have hc0 := hspare.pos c (mem_cons_of_mem b hc)
    rw [← e] at hc0 hc
    refine hb ?_
    by_cases hlq : l + 1 = fs.length + 1 ∧ q = 0
    · rwa [show C0 (l + 1) q = b from if_pos hlq] at hc
    · exact absurd (setCell_other hlq) hc0
  have hn0 : Cells C0 1 :=
    Cells.set ⟨∅, fun _ _ => iff_of_false (Finset.notMem_empty _) fun h => h rfl, rfl⟩ rfl hb0
  obtain ⟨C', h1, h2, h3, h4⟩ := h₀.grow fs (Nat.lt_succ_self _) (by rw [hat]; exact hb0)
    (setCell_other fun e => Nat.ne_of_lt fs.length.lt_succ_self e.1) hs0 hv hr3 hn0 hat.symm rfl
  have hheap : (t.run ((b :: fs).map .clear ++ chain k v (b :: fs))).heap =
      (t0.run (.slot b (radixSlot k fs.length) (fs.headD v) ::
        .count b ((t0.heap b).count + 1) :: chain k v fs)).heap := by
    rw [run_append, chain_cons, hbz]
    have he : (t.run ((b :: fs).map .clear)).heap = t0.heap := rfl
    exact heap_run_congr he _
  rw [run_append, hzero]
  refine (hzero ▸ h).of_shape hk rfl hv ⟨C', ?_, ?_⟩ rfl (.inr hlen)
  · exact h1.same h3.symm h4.symm hheap
  change Cells C' (t.nodes + (fs.length + 1))
  rw [hnodes, Nat.zero_add, Nat.add_comm]
  exact h2

theorem Inv.insertHigher (h : Inv t m) (hroot : t.root ≠ 0) (hk : k < 2 ^ 64) (hm : m k = 0)
    (hv : v ≠ 0) (hlow : t.height < requiredHeight k) (hf : Fresh t alloc)
    (wrappers branch : List ℕ) (hsub : (wrappers ++ branch).Sublist alloc)
    (hw : wrappers.length = requiredHeight k - t.height)
    (hb : branch.length = requiredHeight k - 1) {ws : List Write}
    (hws : ws = (wrappers ++ branch).map .clear ++ wrap t.root wrappers ++
      [.slot (wrappers.headD 0) (radixSlot k (requiredHeight k - 1)) (branch.headD 0),
        .count (wrappers.headD 0) 2] ++ chain k v branch) :
    Inv (t.run (ws ++ [.root (wrappers.headD 0), .height (requiredHeight k),
        .nodes (t.nodes + (requiredHeight k - t.height + (requiredHeight k - 1))),
        .entries (t.entries + 1)])) (update m k v) := by
  obtain ⟨C, hs, hn⟩ := h.cells
  obtain ⟨x, hx⟩ := hs.exists_key hroot
  have hpos := (hs.fits x hx).1
  obtain ⟨-, -, hr3, hr4⟩ := requiredHeight_spec hk
  set t0 := t.run ((wrappers ++ branch).map .clear) with ht0
  obtain ⟨h₀, hspare, hheader⟩ := hf.clear hs hsub ht0
  have hnd := nodup_append.mp hspare.nodup
  have hwspare : Spare t0 C wrappers := ⟨fun c hc => hspare.pos c (mem_append_left _ hc),
    fun c hc => hspare.zero c (mem_append_left _ hc),
    fun c hc => hspare.free c (mem_append_left _ hc), hnd.1⟩
  have hwne : wrappers ≠ [] := fun e => by
    rw [e, length_nil] at hw
    omega
  -- the new root first, although the code stores it last
  obtain ⟨C1, h1, h2, h3, h4, h5⟩ := h₀.wraps wrappers (hheader.1 ▸ hroot) hwspare hn rfl
  set t1 : Tree := { t0.run (wrap t0.root wrappers) with
    root := wrappers.headD t0.root, height := t0.height + wrappers.length } with ht1
  have hheight : t1.height = branch.length + 1 := by
    change t0.height + wrappers.length = _
    omega
  have hheight' : t1.height = requiredHeight k := by omega
  have hnot : ∀ c ∈ branch, c ∉ wrappers := fun c hc hcw => hnd.2.2 c hcw c hc rfl
  have hbspare : Spare t1 C1 branch := ⟨fun c hc => hspare.pos c (mem_append_right _ hc),
    fun c hc => (h3 c (hnot c hc)).trans (hspare.zero c (mem_append_right _ hc)),
    fun c hc => h4 c (hnot c hc) (hspare.free c (mem_append_right _ hc)), hnd.2.1⟩
  have hfit : cellOf k t1.height = 0 := hheight' ▸ hr3
  have hrootcell : t1.root = C1 (branch.length + 1) (cellOf k (branch.length + 1)) := by
    rw [h1.root, ← hheight, hfit]
  have hroot1 : t1.root ≠ 0 := h1.root_ne_zero hx
  have hnone : C1 branch.length (cellOf k branch.length) = 0 := by
    by_contra hc
    obtain ⟨-, y, hy, he⟩ := h1.live_iff.mp hc
    refine hr4 (by omega) ?_
    rw [← hb, ← he]
    have hz := (hs.fits y hy).2
    rw [cellOf_eq_zero] at hz ⊢
    exact Nat.lt_of_lt_of_le hz (Nat.pow_le_pow_right (by decide) (by omega))
  obtain ⟨C', g1, g2, g3, g4⟩ := (h1.mark (hrootcell ▸ hroot1)).grow branch (by omega)
    (hrootcell ▸ hroot1) hnone hbspare hv hfit h2 hrootcell rfl
  have hhead : ∀ c d, wrappers.headD c = wrappers.headD d := by
    cases wrappers with
    | nil => exact absurd rfl hwne
    | cons b ws => exact fun _ _ => rfl
  have hhead' : branch.headD 0 = branch.headD v := by
    cases branch with
    | nil =>
      rw [length_nil] at hb
      omega
    | cons b bs => rfl
  have hheap : (t.run ws).heap =
      (t1.run (.slot t1.root (radixSlot k branch.length) (branch.headD v) ::
        .count t1.root ((t1.heap t1.root).count + 1) :: chain k v branch)).heap := by
    rw [hws, h5 hwne, hhead', ← hb, hhead 0 t0.root]
    simp only [run_append, ← hheader.1]
    have he : (t0.run (wrap t0.root wrappers)).heap = t1.heap := rfl
    exact heap_run_congr (heap_run_congr he _) _
  rw [run_append]
  refine h.of_shape hk hm hv ⟨C', ?_, ?_⟩ rfl (.inr rfl)
  · exact g1.same (hheight'.symm.trans g3.symm) ((hhead 0 t0.root).trans g4.symm) hheap
  rw [← hw, ← hb, ← Nat.add_assoc]
  exact g2

theorem Inv.insertBelow (h : Inv t m) (hk : k < 2 ^ 64) (hm : m k = 0)
    (hv : v ≠ 0) (hfits : requiredHeight k ≤ t.height) {fresh : List ℕ}
    (hf : Fresh t alloc) (hsub : fresh.Sublist alloc)
    (hP : C (fresh.length + 1) (cellOf k (fresh.length + 1)) ≠ 0)
    (hs : Shape t m C 0 (t.height + 1)) (hn : Cells C t.nodes)
    (hnone : C fresh.length (cellOf k fresh.length) = 0) {P : ℕ}
    (hPe : P = C (fresh.length + 1) (cellOf k (fresh.length + 1))) {ws : List Write}
    (hws : ws = fresh.map .clear ++ .slot P (radixSlot k fresh.length) (fresh.headD v) ::
      .count P ((t.heap P).count + 1) :: chain k v fresh) : Inv { t.run ws with
      nodes := t.nodes + fresh.length, entries := t.entries + 1 } (update m k v) := by
  have hpos : 0 < t.height := Nat.lt_of_lt_of_le (requiredHeight_spec hk).1 hfits
  have hlt : fresh.length < t.height := ((hs.live _ _).mp hP).1
  set t0 := t.run (fresh.map .clear) with ht0
  obtain ⟨h₀, hspare, hheader⟩ := hf.clear hs hsub ht0
  have hnode : t0.heap P = t.heap P := by
    rw [ht0, run_clear]
    exact if_neg fun hm => hf.not_cell hs (hsub.subset hm) _ _ hPe.symm
  obtain ⟨C', g1, g2, g3, g4⟩ := (h₀.mark hP).grow fresh (hheader.2 ▸ hlt) hP hnone
    hspare hv (hheader.2 ▸ (requiredHeight_le_iff hk hpos).mp hfits) hn hPe rfl
  rw [hnode] at g1 g3 g4
  subst hws
  rw [run_append]
  refine h.of_shape hk hm hv ⟨C', ?_, g2⟩ rfl (.inl (g3.trans hheader.2))
  exact g1.same rfl rfl rfl

/-- **Insertion.**  A null value and a key that is there are refused; otherwise the key is put
in, or there are not enough nodes and only new nodes are cleared. -/
theorem insert_spec (h : Inv t m) (hk : k < 2 ^ 64) (hf : Fresh t alloc) :
    (v = 0 ∧ insert t k v alloc = (.einval, [])) ∨
      (v ≠ 0 ∧ m k ≠ 0 ∧ insert t k v alloc = (.eexist, [])) ∨
      (v ≠ 0 ∧ m k = 0 ∧ ∃ n, n ≤ 20 ∧ alloc.length < n ∧
        insert t k v alloc = (.enomem, (alloc.take n).map .clear)) ∨
      (v ≠ 0 ∧ m k = 0 ∧ (insert t k v alloc).1 = .ok ∧
        Inv (t.run (insert t k v alloc).2) (update m k v)) := by
  by_cases hv : v = 0
  · exact .inl ⟨hv, by rw [insert, if_pos hv]⟩
  refine .inr ?_
  by_cases hm : m k = 0
  swap
  · refine .inl ⟨hv, hm, ?_⟩
    rw [insert, if_neg hv, if_pos]
    rw [h.lookup_eq hk]
    exact hm
  refine .inr ?_
  have hlook : ¬lookup t k ≠ 0 := by
    rw [h.lookup_eq hk]
    exact not_not.mpr hm
  obtain ⟨hr1, hr2, -, -⟩ := requiredHeight_spec hk
  have hshort : ∀ {n}, (alloc.take n).length < n → alloc.length < n := fun hn => by
    rw [length_take] at hn
    omega
  have htake : ∀ {n}, ¬(alloc.take n).length < n → (alloc.take n).length = n := fun hn =>
    Nat.le_antisymm (by rw [length_take]; exact Nat.min_le_left _ _) (Nat.le_of_not_lt hn)
  rw [insert, if_neg hv, if_neg hlook]
  dsimp only
  split
  · next hroot =>
    split
    · next hlen => exact .inl ⟨hv, hm, _, by omega, hshort hlen, rfl⟩
    · next hlen =>
      exact .inr ⟨hv, hm, rfl, h.insertEmpty hroot hk hv hf (take_sublist _ _) (htake hlen)⟩
  next hroot =>
  split
  · next hlow =>
    split
    · next hlen =>
      obtain ⟨C, hs, -⟩ := h.cells
      obtain ⟨x, hx⟩ := hs.exists_key hroot
      have hpos := (hs.fits x hx).1
      exact .inl ⟨hv, hm, _, by omega, hshort hlen, rfl⟩
    next hlen =>
    refine .inr ⟨hv, hm, rfl, ?_⟩
    have hall := htake hlen
    set fresh := alloc.take (requiredHeight k - t.height + (requiredHeight k - 1))
    have hsplit := take_append_drop (requiredHeight k - t.height) fresh
    have hrun := h.insertHigher hroot hk hm hv hlow hf
      (fresh.take (requiredHeight k - t.height)) (fresh.drop (requiredHeight k - t.height))
      (by rw [hsplit]; exact take_sublist _ _)
      (by rw [length_take]; omega) (by rw [length_drop]; omega) rfl
    rw [hsplit] at hrun
    exact hrun
  next hhigh =>
  obtain ⟨C, hs, hn⟩ := h.cells
  obtain ⟨he, hre⟩ := hs.root_eq hroot hk (Nat.le_of_not_lt hhigh)
  obtain ⟨b, h1, h2, h3, h4⟩ := hs.attachPoint_spec (Nat.le_of_eq he) (hre ▸ hroot)
  rw [← hre] at h1
  rw [h1]
  rcases b with _ | b
  · refine .inr ⟨hv, hm, rfl, ?_⟩
    exact h.insertBelow hk hm hv (Nat.le_of_not_lt hhigh) hf (nil_sublist alloc) h3
      hs hn (by rw [length_nil, cellOf_zero, hs.base, hm]) rfl rfl
  split
  · next he => exact absurd (Prod.mk.inj he).1 (Nat.succ_ne_zero b)
  next he =>
  cases he
  split
  · next hlen =>
    have := h.height_le
    exact .inl ⟨hv, hm, _, by omega, hshort hlen, rfl⟩
  next hlen =>
  refine .inr ⟨hv, hm, rfl, ?_⟩
  have hall := htake hlen
  generalize hfr : alloc.take (b + 1) = fresh at hall
  rw [← hall] at h3 h4 ⊢
  have hrun := h.insertBelow hk hm hv (Nat.le_of_not_lt hhigh) hf
    (hfr ▸ take_sublist _ _) h3 hs hn (h4 (by omega)) rfl rfl
  have hhead : fresh.headD 0 = fresh.headD v := by
    cases fresh with
    | nil => simp at hall
    | cons c cs => rfl
  rw [hhead, append_assoc (fresh.map _), run_append _ (fresh.map _ ++ _)]
  exact hrun

/-! ## Replacement -/

theorem Shape.setValue (h : Shape t m C 0 (t.height + 1)) (hkey : m k ≠ 0) (hv : v ≠ 0) :
    Shape (t.run [.slot (C 1 (cellOf k 1)) (radixSlot k 0) v]) (update m k v)
      (setCell C 0 k v) 0 (t.height + 1) := by
  have hpos := (h.fits k hkey).1
  have hup : cellOf k 1 = k / 64 := by rw [cellOf_succ, cellOf_zero]
  have hc : C 0 k ≠ 0 := h.base k ▸ hkey
  have hP : C 1 (k / 64) ≠ 0 := h.up hc hpos
  have hkeys : ∀ x, update m k v x ≠ 0 ↔ m x ≠ 0 := by
    intro x
    rw [update_apply]
    split
    · next e => exact iff_of_true hv (e ▸ hkey)
    · rfl
  have hcells : ∀ j r, setCell C 0 k v j r ≠ 0 ↔ C j r ≠ 0 := by
    intro j r
    rw [setCell]
    split
    · next e =>
      obtain ⟨rfl, rfl⟩ := e
      exact iff_of_true hv hc
    · rfl
  rw [hup, radixSlot_eq, cellOf_zero]
  refine h.change hpos hP ?_ ?_ (fun x hx => (h.fits x ((hkeys x).mp hx)).2) ?_
    fun j hj => absurd hj (Nat.succ_ne_zero j).symm
  · intro r
    rw [setCell, update_apply, h.base]
    simp
  · intro j r
    simp [hcells, hkeys, h.live]
  · rw [h.count _ _ hP]
    exact congrArg Finset.card (Finset.filter_congr fun i _ => (hcells _ _).symm)

/-- **Replacement** gives the old value, and changes it if the key is there. -/
theorem replace_spec (h : Inv t m) (hk : k < 2 ^ 64) :
    (replace t k v).1 = (if v = 0 then 0 else m k) ∧
      Inv (t.run (replace t k v).2) (if v = 0 ∨ m k = 0 then m else update m k v) := by
  obtain ⟨C, hs, hn⟩ := h.cells
  have hlook := hs.lookup_eq hk
  rw [lookup] at hlook
  by_cases hv : v = 0
  · rw [replace, if_pos (.inl hv), if_pos hv, if_pos (.inl hv)]
    exact ⟨rfl, h⟩
  rw [if_neg hv]
  split at hlook
  · next hn =>
    rw [replace, if_pos (.inr hn), if_pos (.inr hlook.symm)]
    exact ⟨hlook, h⟩
  next hno =>
  rw [replace, if_neg (not_or.mpr ⟨hv, hno⟩)]
  dsimp only at hlook ⊢
  split at hlook
  · next hz =>
    rw [if_pos hz, if_pos (.inr hlook.symm)]
    exact ⟨hlook, h⟩
  next hz =>
  rw [if_neg hz, hlook]
  refine ⟨rfl, ?_⟩
  by_cases hm : m k = 0
  · rw [if_pos hm, if_pos (.inr hm)]
    exact h
  rw [if_neg hm, if_neg (not_or.mpr ⟨hv, hm⟩)]
  obtain ⟨hr, hle⟩ := not_or.mp hno
  obtain ⟨he, hre⟩ := hs.root_eq hr hk (by omega)
  have hdesc := hs.descend_eq (Nat.le_of_eq he) (hre ▸ hr)
  rw [← hre] at hdesc
  rw [hdesc]
  refine ⟨⟨_, hs.setValue hm hv, hn.value⟩, h.keys.change hm hv, fun x => h.word_update hk,
    fun hpos => ?_⟩
  obtain ⟨x, hx, hx'⟩ := h.tight hpos
  refine ⟨x, ?_, hx'⟩
  rw [update_apply]
  split
  · exact hv
  · exact hx

/-! ## Deletion -/

/-- What is left once the empty nodes are out: a tree as it should be, or a root without keys. -/
def Collapsed (t : Tree) (m : ℕ → ℕ) (C : ℕ → ℕ → ℕ) (k : ℕ) : Prop :=
  (Shape t m C 0 (t.height + 1) ∧ ∃ x, m x ≠ 0) ∨ (Shape t m C k t.height ∧ ∀ x, m x = 0)

/-- A node that is not empty has a key under it, and the nodes above too. -/
theorem Shape.of_count (h : Shape t m C k (l + 1)) (hc : C (l + 1) (cellOf k (l + 1)) ≠ 0)
    (hn : (t.heap (C (l + 1) (cellOf k (l + 1)))).count ≠ 0) :
    Shape t m C 0 (t.height + 1) ∧ ∃ x, m x ≠ 0 := by
  rw [h.count _ _ hc, Ne, used_zero] at hn
  obtain ⟨i, hi, hci⟩ : ∃ i, i < 64 ∧ C l (cellOf k (l + 1) * 64 + i) ≠ 0 := by
    simpa using hn
  obtain ⟨-, ⟨x, hx, he⟩ | ⟨hle, -⟩⟩ := (h.live _ _).mp hci
  · refine ⟨h.unmark hx ?_, x, hx⟩
    rw [cellOf_succ x]
    omega
  · omega

/-- **Empty nodes are taken out**, from level `l` up. -/
theorem Shape.collapse (h : Shape t m C k (l + 1)) (hl : l + n + 1 = t.height)
    (hfit : cellOf k t.height = 0) (hn : Cells C t.nodes) (ht : t' = t.run (Radix.collapse t k l
      ((range' l (n + 1)).map fun j => C (j + 1) (cellOf k (j + 1))))) :
    ∃ C', Collapsed t' m C' k ∧ Cells C' t'.nodes ∧ t'.height = t.height ∧
      t'.entries = t.entries := by
  have hc : C (l + 1) (cellOf k (l + 1)) ≠ 0 := (h.live _ _).mpr ⟨by omega, .inr ⟨le_rfl, rfl⟩⟩
  induction n generalizing t C l with
  | zero =>
    obtain rfl : t = t' := ht.symm
    refine ⟨C, ?_, hn, rfl, rfl⟩
    by_cases hz : (t.heap (C (l + 1) (cellOf k (l + 1)))).count = 0
    · refine .inr ⟨hl ▸ h, fun x => ?_⟩
      -- every key is under the root
      by_contra hx
      rw [h.count _ _ hc, used_zero] at hz
      refine (h.live l (cellOf x l)).mpr ⟨by omega, .inl ⟨x, hx, rfl⟩⟩ ?_
      have := hz _ (radixSlot_lt x l)
      have he : cellOf k (l + 1) = cellOf x (l + 1) := by
        rw [show l + 1 = t.height from hl, hfit, (h.fits x hx).2]
      rwa [he, cellOf_slot] at this
    · exact .inl (h.of_count hc hz)
  | succ n ih =>
    rw [range'_succ, map_cons, range'_succ, map_cons, collapse] at ht
    split at ht
    · next hz =>
      subst ht
      exact ⟨C, .inl (h.of_count hc hz), hn, rfl, rfl⟩
    next hz =>
    have h1 := h.delNode (by omega) hc (not_not.mp hz)
    set C1 := setCell C (l + 1) (cellOf k (l + 1)) 0
    set P := C (l + 2) (cellOf k (l + 2))
    set t1 : Tree := { setSlot t P (radixSlot k (l + 1)) 0 ((t.heap P).count - 1) with
      nodes := t.nodes - 1 } with ht1
    have hrun : t.run [.slot P (radixSlot k (l + 1)) 0, .count P ((t.heap P).count - 1),
        .nodes (t.nodes - 1)] = t1 := by
      rw [run_slot_count]
      rfl
    have hlist : P :: ((range' (l + 1 + 1) n).map fun j => C (j + 1) (cellOf k (j + 1))) =
        (range' (l + 1) (n + 1)).map fun j => C1 (j + 1) (cellOf k (j + 1)) := by
      congr 1
      · exact (setCell_other (by omega)).symm
      refine map_congr_left fun j hj => (setCell_other fun e => ?_).symm
      have := (mem_range'_1.mp hj).1
      omega
    have hfr : Shape t1 m C1 k (l + 1 + 1) := h1.frame rfl rfl fun _ _ _ => rfl
    obtain ⟨C', g1, g2, g3, g4⟩ := ih hfr
      (by rw [← show t1.height = t.height from rfl] at hl; omega) hfit (hn.unset hc) (by
        rw [ht, run_append, hrun, hlist])
      ((hfr.live _ _).mpr ⟨by rw [show t1.height = t.height from rfl]; omega, .inr ⟨le_rfl, rfl⟩⟩)
    exact ⟨C', g1, g2, g3, g4⟩

/-- A root with other children than the first has a key that needs the height. -/
theorem Shape.tight {h : ℕ} (hs : Shape t m C 0 (t.height + 1)) (hheight : t.height = h + 2)
    (hx : m x ≠ 0) (hno : ¬((t.heap t.root).count = 1 ∧ (t.heap t.root).slots 0 ≠ 0)) :
    ∃ y, m y ≠ 0 ∧ cellOf y (h + 1) ≠ 0 := by
  by_contra hall
  have hz : ∀ y, m y ≠ 0 → cellOf y (h + 1) = 0 := fun y hy =>
    not_not.mp fun hne => hall ⟨y, hy, hne⟩
  have hroot : t.root = C (h + 2) 0 := hheight ▸ hs.root
  have hlive : C (h + 2) 0 ≠ 0 := hroot ▸ hs.root_ne_zero hx
  have hfirst : C (h + 1) 0 ≠ 0 := hs.live_iff.mpr ⟨by omega, x, hx, hz x hx⟩
  refine hno ⟨?_, ?_⟩
  · rw [hroot, hs.count _ _ hlive]
    refine used_first hfirst fun i hi => ?_
    by_contra hc
    obtain ⟨-, y, hy, he⟩ := hs.live_iff.mp hc
    rw [hz y hy] at he
    omega
  · rw [hroot, hs.slots _ _ _ hlive (by decide)]
    exact hfirst

/-- **Roots with only their first child go**, until the height is needed. -/
theorem Shape.shrink {h : ℕ} (hs : Shape t m C 0 (t.height + 1)) (hheight : t.height = h)
    (hx : m x ≠ 0) (hn : Cells C t.nodes) (ht : t' = t.run (Radix.shrink t h)) :
    ∃ C', Shape t' m C' 0 (t'.height + 1) ∧ Cells C' t'.nodes ∧ t'.entries = t.entries ∧
      (1 < t'.height → ∃ y, m y ≠ 0 ∧ cellOf y (t'.height - 1) ≠ 0) := by
  induction h generalizing t C with
  | zero =>
    obtain rfl : t = t' := ht.symm
    exact ⟨C, hs, hn, rfl, fun h1 => by omega⟩
  | succ h ih =>
    cases h with
    | zero =>
      obtain rfl : t = t' := ht.symm
      exact ⟨C, hs, hn, rfl, fun h1 => by omega⟩
    | succ h =>
      rw [shrink] at ht
      split at ht
      · next hc =>
        have hroot := hs.root_ne_zero hx
        have hcell : C (h + 2) 0 ≠ 0 := by
          rw [← show t.height = h + 2 from hheight, ← hs.root]
          exact hroot
        set t1 := t.run [.root ((t.heap t.root).slots 0), .height (h + 1), .nodes (t.nodes - 1)]
        have h₁ : Shape t1 m (setCell C (h + 2) 0 0) 0 (t1.height + 1) :=
          hs.delRoot hheight hroot hc.1 hc.2 rfl rfl rfl
        obtain ⟨C', g1, g2, g3, g4⟩ := ih h₁ rfl (hn.unset hcell) ht
        exact ⟨C', g1, g2, g3, g4⟩
      · next hc =>
        obtain rfl : t = t' := ht.symm
        refine ⟨C, hs, hn, rfl, fun _ => ?_⟩
        rw [hheight]
        exact hs.tight hheight hx hc

theorem Shape.required (hs : Shape t m C 0 (t.height + 1)) (hw : ∀ x, m x ≠ 0 → x < 2 ^ 64)
    (hx : m x ≠ 0) (htight : 1 < t.height → ∃ y, m y ≠ 0 ∧ cellOf y (t.height - 1) ≠ 0) :
    ∃ y, m y ≠ 0 ∧ requiredHeight y = t.height := by
  have hle : ∀ y, m y ≠ 0 → requiredHeight y ≤ t.height := fun y hy =>
    (requiredHeight_le_iff (hw y hy) (hs.fits y hy).1).mpr (hs.fits y hy).2
  by_cases h1 : 1 < t.height
  · obtain ⟨y, hy, hc⟩ := htight h1
    refine ⟨y, hy, Nat.le_antisymm (hle y hy) ?_⟩
    by_contra hlt
    exact hc ((requiredHeight_le_iff (hw y hy) (by omega)).mp (by omega))
  · have h2 := (requiredHeight_spec (hw x hx)).1
    have h3 := hle x hx
    exact ⟨x, hx, by omega⟩

theorem Inv.remove (h : Inv t m) (hm : m k ≠ 0) (hs : Shape t m C 0 (t.height + 1))
    (hn : Cells C t.nodes) (hh : t.height = n + 1) : Inv (t.run (remove t k (C 1 (cellOf k 1))
      ((range' 1 n).map fun j => C (j + 1) (cellOf k (j + 1))))) (update m k 0) := by
  have hpos := (hs.fits k hm).1
  have hleaf : C 1 (cellOf k 1) ≠ 0 := hs.live_iff.mpr ⟨hpos, k, hm, rfl⟩
  have hword : ∀ x, update m k 0 x ≠ 0 → x < 2 ^ 64 := fun x => h.word_update (h.word k hm)
  have hkeys := h.keys.unset hm
  -- the value goes first
  set t1 : Tree := { setSlot t (C 1 (cellOf k 1)) (radixSlot k 0) 0
      ((t.heap (C 1 (cellOf k 1))).count - 1) with entries := t.entries - 1 } with ht1
  have hrun : t.run [.slot (C 1 (cellOf k 1)) (radixSlot k 0) 0,
      .count (C 1 (cellOf k 1)) ((t.heap (C 1 (cellOf k 1))).count - 1),
      .entries (t.entries - 1)] = t1 := by
    rw [run_slot_count]
    rfl
  have h1 : Shape t1 (update m k 0) (setCell C 0 k 0) k (0 + 1) :=
    (hs.delKey hpos hleaf hm).frame rfl rfl fun _ _ _ => rfl
  have hlist : C 1 (cellOf k 1) :: ((range' 1 n).map fun j => C (j + 1) (cellOf k (j + 1))) =
      (range' 0 (n + 1)).map fun j => setCell C 0 k 0 (j + 1) (cellOf k (j + 1)) := by
    rfl
  obtain ⟨C2, g1, g2, g3, g4⟩ := h1.collapse (by rw [Nat.zero_add]; exact hh.symm)
    (hs.fits k hm).2 hn.value rfl
  rw [← hlist] at g1 g2 g3 g4
  rw [Radix.remove]
  simp only [run_append, hrun]
  set t2 := t1.run (collapse t1 k 0 (C 1 (cellOf k 1) ::
    (range' 1 n).map fun j => C (j + 1) (cellOf k (j + 1)))) with ht2
  rcases g1 with ⟨hs2, x, hx⟩ | ⟨hs2, hall⟩
  · obtain ⟨C3, f1, f2, f3, f4⟩ := hs2.shrink rfl hx g2 rfl
    set t3 := t2.run (shrink t2 t2.height)
    have hentries : t3.entries = t.entries - 1 := f3.trans g4
    have hne : t3.entries ≠ 0 := fun e => by
      rw [hentries] at e
      exact hx ((hkeys.eq_zero.mp e) x)
    rw [dropRoot, if_neg hne]
    exact ⟨⟨C3, f1, f2⟩, hentries ▸ hkeys, hword, fun _ => f1.required hword hx f4⟩
  -- no key is left: the root is empty, and the only node
  have hheight : t2.height = n + 1 := g3.trans hh
  have hfit : cellOf k (n + 1) = 0 := hh ▸ (hs.fits k hm).2
  have hcell : ∀ l q, C2 l q ≠ 0 ↔ l = n + 1 ∧ q = 0 := by
    intro l q
    rw [hs2.live, hheight]
    constructor
    · rintro ⟨h1, ⟨x, hx, -⟩ | ⟨h2, rfl⟩⟩
      · exact absurd (hall x) hx
      · obtain rfl : l = n + 1 := Nat.le_antisymm h1 h2
        exact ⟨rfl, hfit⟩
    · rintro ⟨rfl, rfl⟩
      exact ⟨le_rfl, .inr ⟨le_rfl, hfit⟩⟩
  have hcount : (t2.heap t2.root).count = 0 := by
    have hroot : t2.root = C2 (n + 1) 0 := hheight ▸ hs2.root
    rw [hroot, hs2.count _ _ ((hcell _ _).mpr ⟨rfl, rfl⟩), used_zero]
    intro i _
    by_contra hc
    exact absurd ((hcell _ _).mp hc).1 (Nat.ne_of_lt n.lt_succ_self)
  have hnodes : t2.nodes = 1 := by
    obtain ⟨ns, h1, h2⟩ := g2
    rw [← h2, Finset.card_eq_one]
    refine ⟨(n, 0), Finset.ext fun ⟨l, q⟩ => ?_⟩
    rw [h1, hcell, Finset.mem_singleton, Prod.mk.injEq, Nat.succ_inj]
  have hentries : t2.entries = 0 := by
    rw [g4]
    exact hkeys.eq_zero.mpr hall
  have hshrink : shrink t2 t2.height = [] := by
    rw [hheight]
    cases n with
    | zero => rfl
    | succ n => rw [shrink, if_neg fun h => by rw [hcount] at h; exact absurd h.1 (by decide)]
  rw [hshrink]
  change Inv (t2.run (dropRoot t2)) _
  rw [dropRoot, if_pos hentries, funext hall]
  have hempty : t2.run [.root 0, .height 0, .nodes (t2.nodes - 1)] = Tree.empty t2.heap := by
    change (⟨t2.heap, 0, t2.entries, t2.nodes - 1, 0⟩ : Tree) = _
    rw [hentries, hnodes]
    rfl
  rw [hempty]
  exact Inv.empty t2.heap

/-- **Deletion** gives the old value, and the key is no longer there. -/
theorem delete_spec (h : Inv t m) (hk : k < 2 ^ 64) :
    (delete t k).1 = m k ∧ Inv (t.run (delete t k).2) (update m k 0) := by
  obtain ⟨C, hs, hn⟩ := h.cells
  have hsame : m k = 0 → Inv t (update m k 0) := fun hm => by
    rw [← hm, update_eq_self]
    exact h
  have hlook := hs.lookup_eq hk
  rw [lookup] at hlook
  rw [delete]
  split at hlook
  · next hno =>
    rw [if_pos hno]
    exact ⟨hlook, hsame hlook.symm⟩
  next hno =>
  obtain ⟨hr, hle⟩ := not_or.mp hno
  obtain ⟨he, hre⟩ := hs.root_eq hr hk (by omega)
  have hc : C (t.height - 1 + 1) (cellOf k (t.height - 1 + 1)) ≠ 0 := hre ▸ hr
  have hdesc := hs.descend_eq (Nat.le_of_eq he) hc
  have hpath := hs.path_eq (Nat.le_of_eq he) hc
  rw [← hre] at hdesc hpath
  dsimp only at hlook
  rw [hdesc] at hlook
  rw [if_neg hno, hpath]
  split at hlook
  · next hz =>
    rw [if_pos hz]
    exact ⟨hlook, hsame hlook.symm⟩
  next hz =>
  rw [if_neg hz, range_eq_range', range'_succ, map_cons]
  dsimp only
  rw [hlook]
  split
  · next hm => exact ⟨hm.symm, hsame hm⟩
  · next hm => exact ⟨rfl, h.remove hm hs hn he.symm⟩

end

end AvoryOS.Radix
