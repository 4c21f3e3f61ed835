import AvoryOS.Rb.Tree

/-!
# The links of the red-black tree

What the code does to the links and values at a place of the tree: rotations, changes of colour,
putting a node in, and taking a node out.
-/

namespace AvoryOS.Rb

open LinkedTree RedBlack List Heap

variable {β : Type} {V : Prop} {cb : Callback β} {h h₀ : Heap β} {s : Side} {x y z p root : ℕ}
  {c c' : Color} {k : List (Frame Color)} {t A B D : RedBlack.Tree}

namespace Heap

variable {n : Node Color}

@[simp] theorem node_update_self : (h.update x n).node x = n := Function.update_self ..

theorem node_update_of_ne (hz : z ≠ x) : (h.update x n).node z = h.node z :=
  Function.update_of_ne hz ..

theorem update_self : h.update x (h.node x) = h := by
  rw [update, Function.update_eq_self]

@[simp] theorem root_update : (h.update x n).root = h.root := rfl

@[simp] theorem node_augment : (h.augment cb x).node = h.node := by
  cases cb <;> rfl

@[simp] theorem root_augment : (h.augment cb x).root = h.root := by
  cases cb <;> rfl

theorem root_relink : (h.relink s p x y).root = if p = 0 then y else h.root := by
  rw [relink]
  split_ifs <;> first | rfl | contradiction

theorem node_relink_of_ne (hz : z ≠ p ∨ p = 0) : (h.relink s p x y).node z = h.node z := by
  rw [relink]
  split_ifs with h0
  · exact node_update_of_ne (hz.resolve_right h0)
  · exact node_update_of_ne (hz.resolve_right h0)
  · rfl

/-- The node above gets the other child on the side of the first. -/
theorem node_relink (h0 : p ≠ 0) (s' : Side) (hc : h.child p s' = x)
    (hc' : h.child p s'.other ≠ x) : (h.relink s p x y).node p = (h.node p).setChild s' y := by
  rw [relink, if_pos h0]
  by_cases hs : s = s'
  · subst hs
    rw [if_pos hc]
    exact node_update_self
  have hs' : s = s'.other := by
    cases s <;> cases s' <;> first | rfl | contradiction
  subst hs'
  rw [if_neg hc', Side.other_other]
  exact node_update_self

end Heap

theorem rotate_node (cb : Callback β) {ta tb td : ℕ} (hx : h.node x = .of s p ta y c)
    (hy : h.node y = .of s x tb td c') (hxy : x ≠ y) (hbx : tb ≠ x) (hby : tb ≠ y) (hpx : p ≠ x)
    (hpy : p ≠ y) (hpb : p = tb → p = 0) :
    (rotate cb s x h).node x = .of s y ta tb c ∧ (rotate cb s x h).node y = .of s p x td c' ∧
      (tb ≠ 0 → (rotate cb s x h).node tb = (h.node tb).setParent x) ∧
      (p ≠ 0 → ∀ s', h.child p s' = x → h.child p s'.other ≠ x →
        (rotate cb s x h).node p = (h.node p).setChild s' y) ∧
      (∀ z, z ≠ x → z ≠ y → (z = tb → tb = 0) → (z = p → p = 0) →
        (rotate cb s x h).node z = h.node z) ∧
      (rotate cb s x h).root = if p = 0 then y else h.root := by
  have e1 : h.child x s.other = y := by rw [child, hx, Node.child_other_of]
  have e2 : h.parent x = p := by rw [parent, hx, Node.parent_of]
  have e3 : h.child y s = tb := by rw [child, hy, Node.child_of]
  -- the states of the memory between the stores
  obtain ⟨h1, hh1⟩ : ∃ h1, h1 = h.setChild x s.other tb := ⟨_, rfl⟩
  have n1x : h1.node x = .of s p ta tb c := by
    rw [hh1, setChild, node_update_self, hx, Node.setChild_other_of]
  have n1 : ∀ z, z ≠ x → h1.node z = h.node z := fun z hz => by
    rw [hh1, setChild, node_update_of_ne hz]
  have c1 : h1.child y s = tb := by rw [child, n1 y hxy.symm, hy, Node.child_of]
  obtain ⟨h2, hh2⟩ : ∃ h2, h2 = if tb ≠ 0 then h1.setParent tb x else h1 := ⟨_, rfl⟩
  have n2b : tb ≠ 0 → h2.node tb = (h.node tb).setParent x := fun h0 => by
    rw [hh2, if_pos h0, setParent, node_update_self, n1 tb hbx]
  have n2 : ∀ z, (z = tb → tb = 0) → h2.node z = h1.node z := fun z hz => by
    rw [hh2]
    split_ifs with h0
    · exact node_update_of_ne fun e => h0 (hz e)
    · rfl
  obtain ⟨h4, hh4⟩ : ∃ h4, h4 = (h2.setChild y s x).setParent y p := ⟨_, rfl⟩
  have n4y : h4.node y = .of s p x td c' := by
    rw [hh4, setParent, node_update_self, setChild, node_update_self,
      n2 y fun e => absurd e.symm hby, n1 y hxy.symm, hy, Node.setChild_of, Node.setParent_of]
  have n4 : ∀ z, z ≠ y → h4.node z = h2.node z := fun z hz => by
    rw [hh4, setParent, node_update_of_ne hz, setChild, node_update_of_ne hz]
  have hrot : rotate cb s x h =
      (((h4.relink s p x y).setParent x y).augment cb x).augment cb y := by
    rw [rotate]
    simp [e1, e2, e3, ← hh1, c1, ← hh2, ← hh4]
  have nx : (h4.relink s p x y).node x = .of s p ta tb c := by
    rw [node_relink_of_ne (.inl hpx.symm), n4 x hxy, n2 x fun e => absurd e.symm hbx, n1x]
  have nz : ∀ z, z ≠ x → (rotate cb s x h).node z = (h4.relink s p x y).node z := fun z hz => by
    rw [hrot, node_augment, node_augment, setParent, node_update_of_ne hz]
  refine ⟨?_, ?_, fun h0 => ?_, fun h0 s' hc hc' => ?_, fun z hzx hzy hzb hzp => ?_, ?_⟩
  · rw [hrot, node_augment, node_augment, setParent, node_update_self, nx, Node.setParent_of]
  · rw [nz y hxy.symm, node_relink_of_ne (.inl hpy.symm), n4y]
  · rw [nz tb hbx, node_relink_of_ne, n4 tb hby, n2b h0]
    by_cases hp : tb = p
    · exact .inr (hpb hp.symm)
    · exact .inl hp
  · have hnp : h4.node p = h.node p := by
      rw [n4 p hpy, n2 p fun e => absurd (hpb e) h0, n1 p hpx]
    rw [nz p hpx, node_relink h0 s', hnp]
    · rw [child, hnp]
      exact hc
    · rw [child, hnp]
      exact hc'
  · rw [nz z hzx, node_relink_of_ne, n4 z hzy, n2 z hzb, n1 z hzx]
    by_cases hp : z = p
    · exact .inr (hzp hp)
    · exact .inl hp
  rw [hrot, root_augment, root_augment, setParent, root_update, root_relink]
  have hroot : h4.root = h.root := by
    rw [hh4, hh2]
    split_ifs <;> rw [hh1] <;> rfl
  rw [hroot]

theorem aug_augment {f : ℕ → Option β → Option β → β} {near far : ℕ}
    (hx : h.node x = .of s p near far c) : (h.augment (some f) x).aug = Function.update h.aug x
      (combine f s x (h.value near) (h.value far)) := by
  rw [augment, child, child, hx]
  cases s <;> rfl

theorem aug_augment_of_ne (hz : z ≠ x) : (h.augment cb x).aug z = h.aug z := by
  cases cb with
  | none => rfl
  | some f => exact Function.update_of_ne hz ..

theorem aug_setParent : (h.setParent x p).aug = h.aug := rfl

theorem aug_relink : (h.relink s p x y).aug = h.aug := by
  rw [relink]
  split_ifs <;> rfl

theorem rotate_aug (cb : Callback β) (s : Side) (x : ℕ) (h : Heap β) : ∃ h' : Heap β,
    h'.node = (rotate cb s x h).node ∧ h'.root = (rotate cb s x h).root ∧ h'.aug = h.aug ∧
      rotate cb s x h = (h'.augment cb x).augment cb (h.child x s.other) := by
  rw [rotate]
  refine ⟨_, ?_, ?_, ?_, rfl⟩
  · rw [node_augment, node_augment]
  · rw [root_augment, root_augment]
  · rw [aug_setParent, aug_relink]
    split_ifs <;> rfl

/-! ## The tree at a place -/

/-- The tree with `t` at the place `k` is in the memory, and every node has its value. -/
structure Good (cb : Callback β) (h : Heap β) (k : List (Frame Color)) (t : RedBlack.Tree) :
    Prop where
  links : At h.node h.root k t
  exact : ∀ f, cb = some f → Exact f h.aug t ∧ ExactCtx f h.aug k (value f t)

theorem Good.congr {f f' : ℕ → Option β → Option β → β} {h' : Heap β}
    (hg : Good (some f) h [] t) (hroot : h'.root = h.root)
    (hnode : ∀ z ∈ inorder t, h'.node z = h.node z) (haug : ∀ z ∈ inorder t, h'.aug z = h.aug z)
    (hf : ∀ z ∈ inorder t, f' z = f z) : Good (some f') h' [] t := by
  refine ⟨⟨hg.links.tree.congr hnode, fun e he => (by cases he), hroot.trans hg.links.root_eq,
    hg.links.nodup, hg.links.nonzero⟩, fun g hg' => ?_⟩
  cases hg'
  exact ⟨((hg.exact f rfl).1.congr haug).congr_fun hf, trivial⟩

/-- The nodes outside of a tree are as in another memory. -/
def Outside (h₀ h : Heap β) (k : List (Frame Color)) (t : RedBlack.Tree) : Prop :=
  ∀ z, z ≠ 0 → z ∉ inorder t → z ∉ addrs k → h.node z = h₀.node z ∧ h.aug z = h₀.aug z

/-- The tree is in the memory and the rest of the memory is as before.  The values are claimed only
if `V`: the links and the colours do not depend on them. -/
structure Held (V : Prop) (cb : Callback β) (h₀ h : Heap β) (k : List (Frame Color))
    (t : RedBlack.Tree) : Prop where
  links : At h.node h.root k t
  exact : V → ∀ f, cb = some f → Exact f h.aug t ∧ ExactCtx f h.aug k (value f t)
  frame : Outside h₀ h k t

theorem At.held (hat : At h.node h.root k t) (hg : V → Good cb h k t) : Held V cb h h k t :=
  ⟨hat, fun hV => (hg hV).exact, fun _ _ _ _ => ⟨rfl, rfl⟩⟩

theorem Good.held (hg : Good cb h k t) : Held True cb h h k t :=
  At.held hg.links fun _ => hg

theorem Held.good (hg : Held V cb h₀ h k t) (hV : V) : Good cb h k t := ⟨hg.links, hg.exact hV⟩

/-- The values of a tree after a rotation. -/
def Lawful (cb : Callback β) : Prop := ∀ f, cb = some f → RotationLaw f

variable {g : Frame Color}

theorem At.child_up {mem : ℕ → Node Color} (hat : At mem root (g :: k) t)
    (ht : t ≠ .nil) : (mem g.node.1).child g.side = top t ∧
      (mem g.node.1).child g.side.other ≠ top t := by
  have hg : mem g.node.1 = .of g.side (up k) (top t) (top g.sib) g.node.2 := hat.ctx _ mem_cons_self
  rw [hg, Node.child_of, Node.child_other_of]
  refine ⟨rfl, ?_⟩
  by_cases hs : g.sib = .nil
  · rw [hs]
    exact (hat.top_ne_zero ht).symm
  · exact hat.mem_ne_top (mem_cons_of_mem _ (mem_append_left _ (mem_top hs)))

/-- The node above gets another child in place of the tree. -/
theorem At.node_relink {h₁ : Heap β} (hat : At h.node h.root (g :: k) t)
    (ht : t ≠ .nil) (hsame : h₁.node g.node.1 = h.node g.node.1) :
    (h₁.relink s g.node.1 (top t) y).node g.node.1 = (h.node g.node.1).setChild g.side y := by
  obtain ⟨hc, hc'⟩ := At.child_up hat ht
  have h0 : g.node.1 ≠ 0 := fun e => hat.nonzero (mem_append_right _ (e ▸ mem_cons_self))
  rw [← hsame] at hc hc' ⊢
  exact Heap.node_relink h0 g.side hc hc'

/-! ## Values on the way up -/

/-- The tree is in the memory, and all nodes have their values but those on the way up. -/
structure Loose (V : Prop) (cb : Callback β) (h₀ h : Heap β) (k : List (Frame Color))
    (t : RedBlack.Tree) : Prop where
  links : At h.node h.root k t
  exact : V → ∀ f, cb = some f → Exact f h.aug t ∧ ExactSibs f h.aug k
  frame : Outside h₀ h k t

theorem Loose.augment (hl : Loose V cb h₀ h (g :: k) t) :
    Loose V cb h₀ (h.augment cb g.node.1) k (g.fill t) := by
  refine ⟨?_, fun hV f hf => ?_, fun z hz0 hz hzk => ?_⟩
  · rw [node_augment, root_augment]
    exact hl.links.up
  · subst hf
    obtain ⟨ht, hsibs⟩ := hl.exact hV f rfl
    have hsib := hsibs g mem_cons_self
    have h0 := hl.links.nonzero
    simp only [addrs, mem_append, mem_cons, not_or] at h0
    obtain ⟨-, hnk, hdisj⟩ := nodup_append.mp hl.links.nodup
    obtain ⟨hgk, -⟩ := nodup_cons.mp hnk
    rw [mem_append, not_or] at hgk
    have haug := aug_augment (f := f) (hl.links.ctx _ mem_cons_self)
    rw [Heap.value, Heap.value, ← ht.value_eq h0.1, ← hsib.value_eq h0.2.2.1] at haug
    have hsame : ∀ z, z ≠ g.node.1 → (h.augment (some f) g.node.1).aug z = h.aug z := fun z hz =>
      aug_augment_of_ne hz
    refine ⟨exact_join.mpr ⟨?_, ht.congr fun z hz => hsame z ?_, hsib.congr fun z hz => hsame z ?_⟩,
      ?_⟩
    · rw [haug, Function.update_self]
    · exact hdisj z hz _ mem_cons_self
    · exact ne_of_mem_of_not_mem hz hgk.1
    · exact fun g' hg' => (hsibs g' (mem_cons_of_mem _ hg')).congr fun z hz =>
        hsame z (ne_of_mem_of_not_mem (mem_addrs_of_mem_sib hg' hz) hgk.2)
  · simp only [Frame.fill, mem_inorder_join, not_or] at hz
    rw [node_augment, aug_augment_of_ne hz.1]
    refine hl.frame z hz0 hz.2.1 ?_
    simp only [addrs, mem_cons, mem_append, not_or]
    exact ⟨hz.1, hz.2.2, hzk⟩

/-! ## Rotations and colours -/

/-- The tree is linked after a rotation, and the rest of the memory is not written. -/
theorem At.rotated (cb : Callback β)
    (hat : At h.node h.root k (join s (x, c) A (join s (y, c') B D))) :
    At (rotate cb s x h).node (rotate cb s x h).root k (join s (y, c') (join s (x, c) A B) D) ∧
      ∀ z, z ∉ inorder (join s (x, c) A (join s (y, c') B D)) → z ∉ addrs k →
        (rotate cb s x h).node z = h.node z := by
  obtain ⟨hx, hA, hy⟩ := holds_join.mp hat.tree
  obtain ⟨hy, hB, hD⟩ := holds_join.mp hy
  have hctx := hat.ctx
  rw [top_join] at hx hctx
  have hperm : (inorder (join s (x, c) A (join s (y, c') B D)) ++ addrs k).Perm
      (x :: y :: (inorder A ++ (inorder B ++ (inorder D ++ addrs k)))) := by
    refine inorder_join_addrs.trans (Perm.cons _ ?_)
    exact (inorder_join_addrs.append_left (inorder A)).trans perm_middle
  have hn := hperm.nodup_iff.mp hat.nodup
  have h0 : 0 ∉ x :: y :: (inorder A ++ (inorder B ++ (inorder D ++ addrs k))) := fun h =>
    hat.nonzero (hperm.mem_iff.mpr h)
  simp only [nodup_cons, nodup_append, mem_cons, mem_append, not_or] at hn h0
  obtain ⟨⟨hxy, hxA, hxB, hxD, hxk⟩, ⟨hyA, hyB, hyD, hyk⟩, hAn, ⟨hBn, ⟨hDn, hkn, hDk⟩, hBo⟩,
    hAo⟩ := hn
  obtain ⟨h0x, h0y, h0A, h0B, h0D, h0k⟩ := h0
  have hbx : top B ≠ x := (ne_top (Ne.symm h0x) hxB).symm
  have hby : top B ≠ y := (ne_top (Ne.symm h0y) hyB).symm
  have hpx : up k ≠ x := (ne_up (Ne.symm h0x) hxk).symm
  have hpy : up k ≠ y := (ne_up (Ne.symm h0y) hyk).symm
  have hpb : up k = top B → up k = 0 := fun e => (up_eq_or_mem k).elim id fun hm =>
    (top_eq_or_mem B).elim e.trans fun hm' =>
      absurd e.symm (hBo _ hm' _ (.inr hm))
  obtain ⟨hnx, hny, hnb, hnp, hnz, hroot⟩ := rotate_node cb hx hy hxy hbx hby hpx hpy hpb
  have hzb : ∀ z, z ∉ inorder B → z = top B → top B = 0 := fun z hz e =>
    (top_eq_or_mem B).elim id fun hm => absurd (e ▸ hm) hz
  have hzk : ∀ z, z ∉ addrs k → z = up k → up k = 0 := fun z hz e =>
    (up_eq_or_mem k).elim id fun hm => absurd (e ▸ hm) hz
  have hzA : ∀ z ∈ inorder A, (rotate cb s x h).node z = h.node z := fun z hz =>
    hnz z (ne_of_mem_of_not_mem hz hxA) (ne_of_mem_of_not_mem hz hyA)
      (hzb z fun hm => hAo z hz z (.inl hm) rfl) (hzk z fun hm => hAo z hz z (.inr (.inr hm)) rfl)
  have hzD : ∀ z ∈ inorder D, (rotate cb s x h).node z = h.node z := fun z hz =>
    hnz z (ne_of_mem_of_not_mem hz hxD) (ne_of_mem_of_not_mem hz hyD)
      (hzb z fun hm => hBo z hm z (.inl hz) rfl) (hzk z fun hm => hDk z hz z hm rfl)
  have hzB : ∀ z ∈ inorder B, z ≠ top B → (rotate cb s x h).node z = h.node z := fun z hz hne =>
    hnz z (ne_of_mem_of_not_mem hz hxB) (ne_of_mem_of_not_mem hz hyB) (fun e => absurd e hne)
      (hzk z fun hm => hBo z hz z (.inr hm) rfl)
  have hzK : ∀ z ∈ addrs k, z ≠ up k → (rotate cb s x h).node z = h.node z := fun z hz hne =>
    hnz z (ne_of_mem_of_not_mem hz hxk) (ne_of_mem_of_not_mem hz hyk)
      (hzb z fun hm => hBo z hm z (.inr hz) rfl) (fun e => absurd e hne)
  refine ⟨⟨?_, ?_, ?_, ?_, ?_⟩, fun z hz hzk' => ?_⟩
  · refine holds_join.mpr ⟨by rw [top_join]; exact hny, holds_join.mpr ⟨hnx, hA.congr hzA, ?_⟩,
      hD.congr hzD⟩
    exact hB.reparent hBn hzB fun hne => hnb fun e => h0B (e ▸ mem_top hne)
  · rw [top_join]
    refine hctx.rehole hkn hzK fun g k' e => ?_
    subst e
    obtain ⟨hc, hc'⟩ := At.child_up hat (by cases s <;> simp [join])
    rw [top_join] at hc hc'
    exact hnp (fun e => h0k (e ▸ mem_cons_self)) g.side hc hc'
  · rw [hroot, top_join, hat.rootOf_eq]
  · rw [← inorder_rotate]
    exact hat.nodup
  · rw [← inorder_rotate]
    exact hat.nonzero
  · simp only [mem_inorder_join, not_or] at hz
    exact hnz z hz.1 hz.2.2.1 (hzb z hz.2.2.2.1) (hzk z hzk')

/-- **A rotation** brings the far child up. -/
theorem Held.rotated (hcb : V → Lawful cb)
    (hg : Held V cb h₀ h k (join s (x, c) A (join s (y, c') B D))) :
    Held V cb h₀ (rotate cb s x h) k (join s (y, c') (join s (x, c) A B) D) := by
  obtain ⟨hat, hsame⟩ := At.rotated cb hg.links
  obtain ⟨h', hnode, hroot, haug, heq⟩ := rotate_aug cb s x h
  rw [child, (holds_join.mp hg.links.tree).1, Node.child_other_of, top_join] at heq
  -- the links are those of the new tree, and the values of the two nodes are missing
  have hl : Loose V cb h₀ h' (⟨s, (x, c), B⟩ :: ⟨s, (y, c'), D⟩ :: k) A := by
    refine ⟨?_, fun hV f hf => ?_, fun z hz0 hz hzk => ?_⟩
    · rw [hnode, hroot]
      exact At.down (At.down hat)
    · obtain ⟨hex, hexk⟩ := hg.exact hV f hf
      rw [exact_join, exact_join] at hex
      rw [haug]
      exact ⟨hex.2.1, forall_mem_cons.mpr ⟨hex.2.2.2.1,
        forall_mem_cons.mpr ⟨hex.2.2.2.2, hexk.sibs⟩⟩⟩
    simp only [addrs, mem_cons, mem_append, not_or] at hzk
    obtain ⟨hzx, hzB, hzy, hzD, hzk⟩ := hzk
    have hz' : z ∉ inorder (join s (x, c) A (join s (y, c') B D)) := by
      simp only [mem_inorder_join, not_or]
      exact ⟨hzx, hz, hzy, hzB, hzD⟩
    rw [hnode, haug, hsame z hz' hzk]
    exact hg.frame z hz0 hz' hzk
  have hl' : Loose V cb h₀ (rotate cb s x h) k (join s (y, c') (join s (x, c) A B) D) :=
    heq ▸ hl.augment.augment
  refine ⟨hl'.links, fun hV f hf => ⟨(hl'.exact hV f hf).1, ?_⟩, hl'.frame⟩
  rw [value_rotate (hcb hV f hf)]
  refine (hg.exact hV f hf).2.congr fun z hz => ?_
  have hzx := hg.links.mem_ne_top hz
  have hzy := hat.mem_ne_top hz
  rw [top_join] at hzx hzy
  rw [heq, aug_augment_of_ne hzy, aug_augment_of_ne hzx, haug]

theorem Held.rotated_near (hcb : V → Lawful cb)
    (hg : Held V cb h₀ h k (join s (x, c) (join s (y, c') A B) D)) :
    Held V cb h₀ (rotate cb s.other x h) k (join s (y, c') A (join s (x, c) B D)) := by
  have hg' : Held V cb h₀ h k (join s.other (x, c) D (join s.other (y, c') B A)) := by
    rwa [join_other, join_other]
  have hrot := hg'.rotated hcb
  rwa [join_other, join_other] at hrot

section
theorem Held.above (hg : Held V cb h₀ h (g :: k) t) : Held V cb h₀ h k (g.fill t) := by
  refine ⟨hg.links.up, fun hV f hf => ?_, fun z hz0 hz hzk => ?_⟩
  · obtain ⟨ht, hx, hs, hk⟩ := hg.exact hV f hf
    rw [Frame.fill, exact_join, value_join]
    exact ⟨⟨hx, ht, hs⟩, hk⟩
  simp only [Frame.fill, mem_inorder_join, not_or] at hz
  refine hg.frame z hz0 hz.2.1 ?_
  simp only [addrs, mem_cons, mem_append, not_or]
  exact ⟨hz.1, hz.2.2, hzk⟩

theorem Held.below (hg : Held V cb h₀ h k (g.fill t)) : Held V cb h₀ h (g :: k) t := by
  refine ⟨hg.links.down, fun hV f hf => ?_, fun z hz0 hz hzk => ?_⟩
  · obtain ⟨ht, hk⟩ := hg.exact hV f hf
    rw [Frame.fill, exact_join] at ht
    rw [Frame.fill, value_join] at hk
    exact ⟨ht.2.1, ht.1, ht.2.2, hk⟩
  · simp only [addrs, mem_cons, mem_append, not_or] at hzk
    refine hg.frame z hz0 ?_ hzk.2.2
    simp only [Frame.fill, mem_inorder_join, not_or]
    exact ⟨hzk.1, hz, hzk.2.1⟩

theorem held_far :
    Held V cb h₀ h (⟨s.other, (x, c), A⟩ :: k) B ↔ Held V cb h₀ h k (join s (x, c) A B) := by
  have hfill : (⟨s.other, (x, c), A⟩ : Frame Color).fill B = join s (x, c) A B := by
    rw [Frame.fill, join_other]
  rw [← hfill]
  exact ⟨Held.above, Held.below⟩

theorem held_append {k' : List (Frame Color)} :
    Held V cb h₀ h (k ++ k') t ↔ Held V cb h₀ h k' (plug k t) := by
  induction k generalizing t with
  | nil => exact Iff.rfl
  | cons g k ih => exact Iff.trans ⟨Held.above, Held.below⟩ ih

theorem held_plug : Held V cb h₀ h [] (plug k t) ↔ Held V cb h₀ h k t := by
  rw [← held_append, append_nil]

theorem Held.node_eq (hg : Held V cb h₀ h k (join s (x, c) A B)) :
    h.node x = .of s (up k) (top A) (top B) c := (holds_join.mp hg.links.tree).1

theorem Held.node_up (hg : Held V cb h₀ h (g :: k) t) :
    h.node g.node.1 = .of g.side (up k) (top t) (top g.sib) g.node.2 :=
  hg.links.ctx _ mem_cons_self

theorem Held.ne_zero (hg : Held V cb h₀ h k (join s (x, c) A B)) : x ≠ 0 := fun e =>
  hg.links.nonzero (mem_append_left _ (mem_inorder_join.mpr (.inl e.symm)))

theorem Held.isBlack (hg : Held V cb h₀ h k t) : h.isBlack (top t) = true ↔ Black t := by
  cases t with
  | nil => exact ⟨fun _ => trivial, fun _ => rfl⟩
  | node a l r =>
    obtain ⟨x, c⟩ := a
    have hg' : Held V cb h₀ h k (join .left (x, c) l r) := hg
    show h.isBlack x = true ↔ c = .black
    rw [isBlack, color, hg'.node_eq]
    simp [hg'.ne_zero]

section

variable (hg : Held V cb h₀ h k (join s (x, c) A B))
include hg

theorem Held.parent_eq : h.parent x = up k := by
  rw [parent, hg.node_eq, Node.parent_of]

theorem Held.color_eq : h.color x = c := by
  rw [color, hg.node_eq, Node.data_of]

theorem Held.child_near : h.child x s = top A := by
  rw [child, hg.node_eq, Node.child_of]

theorem Held.child_far : h.child x s.other = top B := by
  rw [child, hg.node_eq, Node.child_other_of]

theorem Held.isBlack_near : h.isBlack (h.child x s) = true ↔ Black A := by
  rw [hg.child_near]
  exact (Held.below (g := ⟨s, (x, c), B⟩) hg).isBlack

theorem Held.isBlack_far : h.isBlack (h.child x s.other) = true ↔ Black B := by
  rw [hg.child_far]
  exact (held_far.mpr hg).isBlack

end

variable {s' : Side}

theorem Held.isBlack_far_red (hg : Held V cb h₀ h k (join s (x, c) A (join s' (y, .red) B D))) :
    h.isBlack (h.child x s.other) = false :=
  Bool.eq_false_iff.mpr fun e => by
    rw [hg.isBlack_far, black_join] at e
    cases e

/-- **A change of colour.** -/
theorem Held.setColor (hg : Held V cb h₀ h k (join s (x, c) A B)) (c' : Color) :
    Held V cb h₀ (h.setColor x c') k (join s (x, c') A B) := by
  obtain ⟨hx, hA, hB⟩ := holds_join.mp hg.links.tree
  have hsame : inorder (join s (x, c') A B) = inorder (join s (x, c) A B) := by cases s <;> rfl
  have hn := inorder_join_addrs.nodup_iff.mp hg.links.nodup
  simp only [nodup_cons, mem_append, not_or] at hn
  obtain ⟨⟨hxA, hxB, hxk⟩, -⟩ := hn
  have hz : ∀ z, z ≠ x → (h.setColor x c').node z = h.node z := fun z hz =>
    node_update_of_ne hz
  refine ⟨⟨holds_join.mpr ⟨?_, hA.congr fun z hm => hz z (ne_of_mem_of_not_mem hm hxA),
    hB.congr fun z hm => hz z (ne_of_mem_of_not_mem hm hxB)⟩, ?_, ?_, ?_, ?_⟩, fun hV f hf => ?_,
    fun z hz0 hm hmk => ?_⟩
  · rw [Heap.setColor, node_update_self, hx]
    cases s <;> rfl
  · have hctx := hg.links.ctx
    rw [top_join] at hctx ⊢
    exact hctx.ctx_congr fun z hm => hz z (ne_of_mem_of_not_mem hm hxk)
  · have hroot := hg.links.root_eq
    rw [top_join] at hroot ⊢
    exact hroot
  · rw [hsame]
    exact hg.links.nodup
  · rw [hsame]
    exact hg.links.nonzero
  · have hex := hg.exact hV f hf
    rw [exact_join, value_join] at hex ⊢
    exact hex
  rw [hsame] at hm
  have hzx : z ≠ x := fun e => hm (mem_inorder_join.mpr (.inl e))
  rw [hz z hzx]
  exact hg.frame z hz0 hm hmk

theorem Held.painted (hg : Held V cb h₀ h k t) (ht : t ≠ .nil) :
    Held V cb h₀ (h.setColor (top t) .black) k (paint t) := by
  cases t with
  | nil => exact absurd rfl ht
  | node a l r => exact Held.setColor (s := .left) hg .black

variable {a : ℕ × Color}

theorem Held.setColor_near (hg : Held V cb h₀ h k (join s a (join s' (x, c) A B) D)) (c' : Color) :
    Held V cb h₀ (h.setColor x c') k (join s a (join s' (x, c') A B) D) :=
  (Held.setColor (Held.below (g := ⟨s, a, D⟩) hg) c').above

theorem Held.setColor_far (hg : Held V cb h₀ h k (join s a D (join s' (x, c) A B))) (c' : Color) :
    Held V cb h₀ (h.setColor x c') k (join s a D (join s' (x, c') A B)) :=
  held_far.mp ((held_far.mpr hg).setColor c')

end

/-- **`rb_augment_propagate` computes the values on the way up.** -/
theorem Loose.propagate {n : ℕ} (hl : Loose V cb h₀ h k t) (hn : k.length < n) :
    ∃ h', rbAugmentPropagate n cb (up k) h = some h' ∧ Held V cb h₀ h' k t := by
  rw [rbAugmentPropagate]
  cases cb with
  | none => exact ⟨h, rfl, hl.links, fun _ f hf => (by cases hf), hl.frame⟩
  | some f =>
    induction k generalizing h t n with
    | nil =>
      obtain ⟨n, rfl⟩ := Nat.exists_eq_succ_of_ne_zero (Nat.ne_of_gt hn)
      exact ⟨h, rfl, hl.links, fun hV f' hf => ⟨(hl.exact hV f' hf).1, trivial⟩, hl.frame⟩
    | cons g k ih =>
      obtain ⟨n, rfl⟩ := Nat.exists_eq_succ_of_ne_zero (Nat.ne_zero_of_lt hn)
      have hne : g.node.1 ≠ 0 := fun e =>
        hl.links.nonzero (mem_append_right _ (e ▸ mem_cons_self))
      have hnode := hl.links.ctx _ mem_cons_self
      have hstep : propagateStep (some f) (h, up (g :: k)) =
          .inl (h.augment (some f) g.node.1, up k) := by
        have hp : (h.augment (some f) g.node.1).parent g.node.1 = up k := by
          rw [parent, node_augment, hnode, Node.parent_of]
        exact (if_neg hne).trans (congrArg (fun p => Sum.inl (h.augment (some f) g.node.1, p)) hp)
      obtain ⟨h', hrun, hgood⟩ := ih (Nat.lt_of_succ_lt_succ hn) hl.augment
      refine ⟨h', ?_, hgood.below⟩
      rw [Repeat.run, hstep]
      exact hrun

end AvoryOS.Rb
