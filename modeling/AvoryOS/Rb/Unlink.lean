import AvoryOS.Rb.Links

/-!
# Taking a node out of the red-black tree

A node with at most one child is replaced by it.  A node with two children is replaced by the next
node in order, which has no left child.
-/

namespace AvoryOS.Rb

open LinkedTree RedBlack List Heap

variable {β : Type} {h : Heap β} {s : Side} {x y z n : ℕ} {c c' : Color}
  {k : List (Frame Color)} {t B : RedBlack.Tree}

/-- **The child of a node takes its place.**  The node itself and the rest of the memory stay. -/
theorem unlinkNode_links (hat : At h.node h.root k (join s (x, c) t .nil)) :
    At (unlinkNode h x (top t)).node (unlinkNode h x (top t)).root k t ∧
      (∀ z, z ≠ 0 → z ∉ inorder t → z ∉ addrs k → (unlinkNode h x (top t)).node z = h.node z) ∧
      (unlinkNode h x (top t)).aug = h.aug := by
  have hperm : (inorder (join s (x, c) t .nil) ++ addrs k).Perm (x :: (inorder t ++ addrs k)) :=
    inorder_join_addrs
  obtain ⟨hx, hn⟩ := nodup_cons.mp (hperm.nodup_iff.mp hat.nodup)
  have h0 : 0 ∉ x :: (inorder t ++ addrs k) := fun h => hat.nonzero (hperm.mem_iff.mpr h)
  simp only [mem_cons, mem_append, not_or] at hx h0
  obtain ⟨-, -, hdisj⟩ := nodup_append.mp hn
  have hparent : h.parent x = up k := by
    rw [parent, (holds_join.mp hat.tree).1, Node.parent_of]
  obtain ⟨h1, hh1⟩ : ∃ h1, h1 = if top t ≠ 0 then h.setParent (top t) (up k) else h := ⟨_, rfl⟩
  have heq : unlinkNode h x (top t) = h1.relink .left (up k) x (top t) := by
    rw [unlinkNode, hparent, hh1]
  have hroot : h1.root = h.root ∧ h1.aug = h.aug := by
    rw [hh1]
    split_ifs <;> exact ⟨rfl, rfl⟩
  have hnode : ∀ z, (z = top t → top t = 0) → h1.node z = h.node z := fun z hz => by
    rw [hh1]
    split_ifs with ht
    · exact node_update_of_ne fun e => ht (hz e)
    · rfl
  refine ⟨?_, fun z hz0 hz hzk => ?_, ?_⟩
  · have hr : (unlinkNode h x (top t)).root = rootOf k (top t) := by
      rw [heq, root_relink, hroot.1, hat.rootOf_eq]
    rw [hr]
    refine hat.splice (fun ht => ?_) (fun f k' e => ?_) fun z hz hne hne' => ?_
    · have hmem := mem_top ht
      have hne : top t ≠ 0 := ne_of_mem_of_not_mem hmem h0.2.1
      rw [heq, node_relink_of_ne (.inl (ne_up hne fun hm => hdisj _ hmem _ hm rfl)), hh1,
        if_pos hne, setParent, node_update_self]
    · subst e
      have hf : f.node.1 ∈ addrs (f :: k') := mem_cons_self
      have hsame : h1.node f.node.1 = h.node f.node.1 := hnode _ fun e =>
        (top_eq_or_mem t).elim id fun hm => absurd e.symm (hdisj _ hm _ hf)
      have hrel := At.node_relink (s := .left) (y := top t) hat (by cases s <;> simp [join]) hsame
      rwa [top_join, ← show up (f :: k') = f.node.1 from rfl, ← heq] at hrel
    · rw [heq, node_relink_of_ne (.inl hne'), hnode z fun e => absurd e hne]
  · rw [heq, node_relink_of_ne (.inl (ne_up hz0 hzk)), hnode z fun e => absurd e (ne_top hz0 hz)]
  · rw [heq, aug_relink, hroot.2]

/-- **The last node on a side.** -/
theorem deepest_spec (hat : At h.node h.root k t) (ht : t ≠ .nil) (hn : (inorder t).length ≤ n) :
    ∃ kr a B, t = plug kr (join s a .nil B) ∧ (∀ f ∈ kr, f.side = s) ∧
      deepest n s h (top t) = some a.1 := by
  induction n generalizing k t with
  | zero =>
    have := mem_top ht
    rw [length_eq_zero_iff.mp (Nat.le_zero.mp hn)] at this
    cases this
  | succ n ih =>
    obtain ⟨a, near, far, rfl⟩ := exists_join ht s
    have hnode := (holds_join.mp hat.tree).1
    have hchild : h.child a.1 s = top near := by rw [child, hnode, Node.child_of]
    have hlen : (inorder (join s a near far)).length = _ := inorder_join_perm.length_eq
    simp only [length_cons, length_append] at hlen
    rw [top_join, deepest, Repeat.run, hchild]
    by_cases hnear : near = .nil
    · subst hnear
      exact ⟨[], a, far, rfl, fun f hf => (by cases hf), rfl⟩
    have hat' : At h.node h.root (⟨s, a, far⟩ :: k) near := At.down hat
    obtain ⟨kr, b, B, hplug, hside, hrun⟩ := ih hat' hnear (by omega)
    refine ⟨kr ++ [⟨s, a, far⟩], b, B, ?_, ?_, ?_⟩
    · rw [plug_append, ← hplug]
      rfl
    · intro f hf
      rcases mem_append.mp hf with hf | hf
      · exact hside f hf
      · rw [mem_singleton.mp hf]
    · rw [if_pos (hat'.top_ne_zero hnear)]
      exact hrun

/-- The first part of `takePlace`: the subtrees on the right. -/
theorem takePlace_right {Q : RedBlack.Tree} {py child : ℕ} (parent : ℕ)
    (hx : h.child x .right = top Q) (hQ : y ≠ top Q) (hnode : h.node y = ⟨py, 0, child, c'⟩)
    (hcase : (py = x ∧ child = top Q) ∨ (py ≠ x ∧ Q ≠ .nil)) :
    ∃ h2 : Heap β, h2.node y = ⟨py, 0, top Q, c'⟩ ∧
      (top Q ≠ 0 → h2.node (top Q) = (h.node (top Q)).setParent y) ∧
      (∀ z, z ≠ y → z ≠ top Q → h2.node z = h.node z) ∧
      h2.root = h.root ∧ h2.aug = h.aug ∧
      takePlace h x y child parent =
        (let h3 := (h2.setParent y (h2.parent x)).setColor y (h2.color x)
          let h4 := h3.setChild y .left (h3.child x .left)
          let h5 := h4.relink .left (h4.parent x) x y
          (h5.setParent (h5.child x .left) y, if py = x then y else parent)) := by
  have hpy : h.parent y = py := by rw [Heap.parent, hnode]
  rcases hcase with ⟨rfl, rfl⟩ | ⟨hne, hQnil⟩
  swap
  · refine ⟨(h.setChild y .right (top Q)).setParent (top Q) y, ?_, fun _ => ?_, fun z hz hzQ => ?_,
      rfl, rfl, ?_⟩
    · rw [setParent, node_update_of_ne hQ, setChild, node_update_self, hnode]
      rfl
    · rw [setParent, node_update_self, setChild, node_update_of_ne hQ.symm]
    · rw [setParent, node_update_of_ne hzQ, setChild, node_update_of_ne hz]
    · rw [takePlace]
      simp [hpy, if_neg hne, hx]
  refine ⟨if top Q ≠ 0 then h.setParent (top Q) y else h, ?_, fun h0 => ?_, fun z hz hzQ => ?_,
    ?_, ?_, ?_⟩
  · split_ifs with h0
    · exact (node_update_of_ne hQ).trans hnode
    · exact hnode
  · rw [if_pos h0, setParent, node_update_self]
  · split_ifs with h0
    · exact node_update_of_ne hzQ
    · rfl
  · split_ifs <;> rfl
  · split_ifs <;> rfl
  · rw [takePlace]
    simp [hpy]

/-- **The next node takes the place of a node with two children.** -/
theorem takePlace_links {Q L : RedBlack.Tree} {py child : ℕ} (parent : ℕ)
    (hat : At h.node h.root k (join .right (x, c) Q L)) (hL : L ≠ .nil) (hy0 : y ≠ 0)
    (hy : y ∉ x :: (inorder Q ++ (inorder L ++ addrs k))) (hnode : h.node y = ⟨py, 0, child, c'⟩)
    (hcase : (py = x ∧ child = top Q) ∨ (py ≠ x ∧ Q ≠ .nil)) :
    At (takePlace h x y child parent).1.node (takePlace h x y child parent).1.root k
        (join .right (y, c) Q L) ∧
      (∀ z, z ≠ 0 → z ≠ y → z ∉ inorder Q → z ∉ inorder L → z ∉ addrs k →
        (takePlace h x y child parent).1.node z = h.node z) ∧
      (takePlace h x y child parent).1.aug = h.aug ∧
      (takePlace h x y child parent).2 = if py = x then y else parent := by
  have hn := inorder_join_addrs.nodup_iff.mp hat.nodup
  have h0 : 0 ∉ x :: (inorder Q ++ (inorder L ++ addrs k)) := fun h =>
    hat.nonzero (inorder_join_addrs.mem_iff.mpr h)
  simp only [nodup_cons, nodup_append, mem_cons, mem_append, not_or] at hn h0 hy
  obtain ⟨⟨hxQ, hxL, hxk⟩, -, ⟨-, -, hLk⟩, hQo⟩ := hn
  obtain ⟨h0x, h0Q, h0L, h0k⟩ := h0
  obtain ⟨hyx, hyQ, hyL, hyk⟩ := hy
  -- the addresses that are written are apart
  have hLmem := mem_top hL
  have hL0 : top L ≠ 0 := ne_of_mem_of_not_mem hLmem h0L
  have hLQ : top L ≠ top Q := ne_top hL0 fun hm => hQo _ hm _ (.inl hLmem) rfl
  have hLu : top L ≠ up k := ne_up hL0 fun hm => hLk _ hLmem _ hm rfl
  have hnx := (holds_join.mp hat.tree).1
  obtain ⟨h2, n2y, n2Q, n2, hroot, haug, heq⟩ := takePlace_right parent
    (by rw [Heap.child, hnx]; rfl) (ne_top hy0 hyQ) hnode hcase
  have n2x : h2.node x = ⟨up k, top L, top Q, c⟩ :=
    (n2 x (Ne.symm hyx) (ne_top (Ne.symm h0x) hxQ)).trans hnx
  obtain ⟨h4, hh4⟩ : ∃ h4, h4 = ((h2.setParent y (up k)).setColor y c).setChild y .left (top L) :=
    ⟨_, rfl⟩
  have n4y : h4.node y = ⟨up k, top L, top Q, c⟩ := by
    rw [hh4, setChild, node_update_self, setColor, node_update_self,
      setParent, node_update_self, n2y]
    rfl
  have n4 : ∀ z, z ≠ y → h4.node z = h2.node z := fun z hz => by
    rw [hh4, setChild, node_update_of_ne hz, setColor, node_update_of_ne hz,
      setParent, node_update_of_ne hz]
  have n4x : h4.node x = ⟨up k, top L, top Q, c⟩ := (n4 x (Ne.symm hyx)).trans n2x
  have n5x : (h4.relink .left (up k) x y).node x = ⟨up k, top L, top Q, c⟩ := by
    rw [node_relink_of_ne (.inl (ne_up (Ne.symm h0x) hxk)), n4x]
  have heq' : takePlace h x y child parent =
      ((h4.relink .left (up k) x y).setParent (top L) y, if py = x then y else parent) := by
    have hc3 : ((h2.setParent y (up k)).setColor y c).child x .left = top L := by
      rw [Heap.child, setColor, node_update_of_ne (Ne.symm hyx), setParent,
        node_update_of_ne (Ne.symm hyx), n2x]
      rfl
    have hp2 : h2.parent x = up k := by rw [Heap.parent, n2x]
    have hd2 : h2.color x = c := by rw [color, n2x]
    have hp4 : h4.parent x = up k := by rw [Heap.parent, n4x]
    have hc5 : (h4.relink .left (up k) x y).child x .left = top L := by
      rw [Heap.child, n5x]
      rfl
    rw [heq]
    simp [hp2, hd2, hc3, ← hh4, hp4, hc5]
  rw [heq']
  have nz : ∀ z, z ≠ y → z ≠ top L → z ≠ up k →
      ((h4.relink .left (up k) x y).setParent (top L) y).node z = h2.node z := by
    intro z hzy hzL hzu
    rw [setParent, node_update_of_ne hzL, node_relink_of_ne (.inl hzu), n4 z hzy]
  refine ⟨?_, fun z hz0 hzy hzQ hzL hzk => ?_, ?_, rfl⟩
  · have hr : ((h4.relink .left (up k) x y).setParent (top L) y).root = rootOf k y := by
      rw [setParent, root_update, root_relink, hh4]
      show (if up k = 0 then y else h2.root) = _
      rw [hroot, hat.rootOf_eq]
    rw [hr]
    refine At.replace (b := (y, c)) hat hy0 ?_ ?_ (fun hQ => ?_) (fun _ => ?_) (fun f k' e => ?_)
      fun z hz hzQ hzL hzu => ?_
    · simp only [mem_append, not_or]
      exact ⟨hyQ, hyL, hyk⟩
    · rw [setParent, node_update_of_ne (ne_top hy0 hyL),
        node_relink_of_ne (.inl (ne_up hy0 hyk)), n4y]
      rfl
    · have hm := mem_top hQ
      have hQ0 : top Q ≠ 0 := ne_of_mem_of_not_mem hm h0Q
      rw [nz _ (fun e => hyQ (e ▸ hm)) hLQ.symm (ne_up hQ0 fun hm' => hQo _ hm _ (.inr hm') rfl)]
      exact n2Q hQ0
    · rw [setParent, node_update_self, node_relink_of_ne (.inl hLu),
        n4 _ fun e => hyL (e ▸ hLmem), n2 _ (fun e => hyL (e ▸ hLmem)) hLQ]
    · subst e
      have hf : f.node.1 ∈ addrs (f :: k') := mem_cons_self
      have hf0 : f.node.1 ≠ 0 := ne_of_mem_of_not_mem hf h0k
      have hsame : h4.node f.node.1 = h.node f.node.1 := by
        rw [n4 _ (ne_of_mem_of_not_mem hf hyk), n2 _ (ne_of_mem_of_not_mem hf hyk)
          (ne_top hf0 fun hm => hQo _ hm _ (.inr hf) rfl)]
      have hfL : f.node.1 ≠ top L := Ne.symm hLu
      rw [setParent, node_update_of_ne hfL]
      exact At.node_relink hat (by simp [join]) hsame
    · have hzy : z ≠ y := by
        rintro rfl
        simp only [mem_append] at hz
        rcases hz with hz | hz | hz
        · exact hyQ hz
        · exact hyL hz
        · exact hyk hz
      rw [nz z hzy hzL hzu, n2 z hzy hzQ]
  · rw [nz z hzy (ne_top hz0 hzL) (ne_up hz0 hzk), n2 z hzy (ne_top hz0 hzQ)]
  · rw [aug_setParent, aug_relink, hh4]
    exact haug

end AvoryOS.Rb
