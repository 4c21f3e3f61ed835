import AvoryOS.Rb.Links

/-!
# Insertion into the red-black tree

A node is put in as a red leaf, and the values above it are computed again.  A red node below a red
node is then moved up, or removed with one or two rotations.
-/

namespace AvoryOS.Rb

open LinkedTree RedBlack

variable {β : Type} {V : Prop} {cb : Callback β} {h h₀ : Heap β} {s s' : Side} {x p g u n m : ℕ}
  {c c' : Color} {k : List (Frame Color)} {A B D U : RedBlack.Tree} {L : List ℕ}

/-- The new node is a leaf of the tree; its value and those above are not computed yet. -/
theorem Held.link (hg : Held V cb h₀ h k .nil) (hx0 : x ≠ 0) (hx : x ∉ addrs k)
    (hs : ∀ f k', k = f :: k' → f.side = s) :
    Loose V cb h₀ (rbLinkNode x (up k) s h) (⟨.left, (x, .red), .nil⟩ :: k) .nil := by
  have hup : up k ≠ x := (ne_up hx0 hx).symm
  obtain ⟨hnx, hnk, hnz, hroot, haug⟩ : (rbLinkNode x (up k) s h).node x = ⟨up k, 0, 0, .red⟩ ∧
      (up k ≠ 0 → (rbLinkNode x (up k) s h).node (up k) = (h.node (up k)).setChild s x) ∧
      (∀ z, z ≠ x → z ≠ up k → (rbLinkNode x (up k) s h).node z = h.node z) ∧
      (rbLinkNode x (up k) s h).root = (if up k = 0 then x else h.root) ∧
      (rbLinkNode x (up k) s h).aug = h.aug := by
    rw [rbLinkNode]
    split_ifs with h0
    · exact ⟨Heap.node_update_self, absurd h0, fun z hz _ => Heap.node_update_of_ne hz, rfl, rfl⟩
    refine ⟨?_, fun _ => ?_, fun z hz hz' => ?_, rfl, rfl⟩
    · rw [Heap.setChild, Heap.node_update_of_ne hup.symm, Heap.node_update_self]
    · rw [Heap.setChild, Heap.node_update_self, Heap.node_update_of_ne hup]
    · exact (Heap.node_update_of_ne hz').trans (Heap.node_update_of_ne hz)
  have hnodup := hg.links.nodup
  have hnonzero := hg.links.nonzero
  refine ⟨At.down ⟨?_, ?_, ?_, ?_, ?_⟩, fun hV f hf => ⟨trivial, ?_⟩, fun z hz0 _ hzk => ?_⟩
  · refine holds_join.mpr ⟨hnx, fun e he => ?_, fun e he => ?_⟩ <;> cases he
  · refine hg.links.ctx.rehole hnodup (fun z hz hne => ?_) fun f k' e => ?_
    · exact hnz z (ne_of_mem_of_not_mem hz hx) hne
    subst e
    rw [hs f k' rfl]
    exact hnk fun e => hnonzero (e ▸ List.mem_cons_self)
  · rw [hroot, hg.links.rootOf_eq]
    rfl
  · exact List.nodup_cons.mpr ⟨hx, hnodup⟩
  · exact List.not_mem_cons_of_ne_of_not_mem hx0.symm hnonzero
  · rw [haug]
    intro g' hg'
    rcases List.mem_cons.mp hg' with rfl | hg'
    · trivial
    · exact (hg.exact hV f hf).2.sibs g' hg'
  · simp only [addrs, List.mem_cons, List.mem_append, not_or] at hzk
    rw [hnz z hzk.1 (ne_up hz0 hzk.2.2), haug]
    exact hg.frame z hz0 List.not_mem_nil hzk.2.2

/-! ## The loop -/

/-- A red uncle: the parent and the uncle become black, and the grandparent red. -/
theorem Held.insertSide_red
    (hg : Held V cb h₀ h k (join s (g, c) (join s' (p, .red) A B) (join .left (u, .red) U D))) :
    ∃ h', insertSide cb s x p g h = (h', g, up k) ∧
      Held V cb h₀ h' k
        (join s (g, .red) (join s' (p, .black) A B) (join .left (u, .black) U D)) := by
  have hu : h.child g s.other = u := hg.child_far.trans top_join
  have hred : h.isBlack u = false := hu ▸ hg.isBlack_far_red
  have hgood := ((hg.setColor_far .black).setColor_near .black).setColor .red
  refine ⟨_, ?_, hgood⟩
  rw [insertSide]
  simp only [hu, hred, Bool.not_false, if_true]
  rw [hgood.parent_eq]

/-- The last rotation: the parent becomes black and takes the place of the grandparent. -/
theorem Held.insert_rotated (hcb : V → Lawful cb)
    (hg : Held V cb h₀ h k (join s (g, c) (join s (p, c') A D) U)) :
    Held V cb h₀ (rotate cb s.other g ((h.setColor p .black).setColor g .red)) k
      (join s (p, .black) A (join s (g, .red) D U)) :=
  ((hg.setColor_near .black).setColor .red).rotated_near hcb

/-- A black uncle, and the node on the same side as its parent. -/
theorem Held.insertSide_outer (hcb : V → Lawful cb)
    (hg : Held V cb h₀ h k (join s (g, c) (join s (p, .red) (.node (x, .red) A B) D) U))
    (hU : Black U) : ∃ h', insertSide cb s x p g h = (h', x, p) ∧
      Held V cb h₀ h' k (join s (p, .black) (.node (x, .red) A B) (join s (g, .red) D U)) := by
  have hplace : Held V cb h₀ h (⟨s, (p, .red), D⟩ :: ⟨s, (g, c), U⟩ :: k) (.node (x, .red) A B) :=
    Held.below (Held.below hg)
  obtain ⟨-, hne⟩ := At.child_up hplace.links (by simp)
  have hx : h.child p s.other ≠ x := hne
  refine ⟨_, ?_, hg.insert_rotated hcb⟩
  rw [insertSide]
  simp [hg.isBlack_far.mpr hU, if_neg hx]

/-- A black uncle, and the node on the other side: the parent goes down first. -/
theorem Held.insertSide_inner (hcb : V → Lawful cb)
    (hg : Held V cb h₀ h k (join s (g, c) (join s (p, .red) D (join s (x, .red) A B)) U))
    (hU : Black U) : ∃ h', insertSide cb s x p g h = (h', p, x) ∧
      Held V cb h₀ h' k (join s (x, .black) (join s (p, .red) D A) (join s (g, .red) B U)) := by
  have hplace : Held V cb h₀ h (⟨s, (g, c), U⟩ :: k) (join s (p, .red) D (join s (x, .red) A B)) :=
    Held.below hg
  have hx : h.child p s.other = x := hplace.child_far.trans top_join
  have hrot := (hplace.rotated hcb).above
  refine ⟨_, ?_, hrot.insert_rotated hcb⟩
  rw [insertSide]
  simp [hg.isBlack_far.mpr hU, if_pos hx]

/-- The tree in the loop: the rules hold but for the red node and the one above it. -/
def Pending (V : Prop) (cb : Callback β) (h₀ : Heap β) (L : List ℕ) (m : ℕ)
    (st : Heap β × ℕ × ℕ) : Prop :=
  ∃ k l r n, k.length = m ∧ Held V cb h₀ st.1 k (.node (st.2.1, .red) l r) ∧ st.2.2 = up k ∧
    Rules (.node (st.2.1, .red) l r) n ∧ Hole k n ∧
    inorder (plug k (.node (st.2.1, .red) l r)) = L

/-- The tree after the loop: only the root may be red. -/
def Settled (V : Prop) (cb : Callback β) (h₀ : Heap β) (L : List ℕ) (h : Heap β) : Prop :=
  ∃ k x l r n, Held V cb h₀ h k (.node (x, .red) l r) ∧ Rules (.node (x, .red) l r) n ∧ Hole k n ∧
    (k = [] ∨ TopBlack k) ∧ inorder (plug k (.node (x, .red) l r)) = L

/-- What a pass does below the grandparent. -/
theorem Held.insertSide_pending (hcb : V → Lawful cb)
    (hg : Held V cb h₀ h (⟨s', (p, .red), D⟩ :: ⟨s, (g, .black), U⟩ :: k) (.node (x, .red) A B))
    (hr : Rules (.node (x, .red) A B) n) (hD : Black D) (hrD : Rules D n) (hrU : Rules U n)
    (hk : Hole k (n + 1)) : ∃ m < k.length + 2, Pending V cb h₀ (inorder (plug k (join s (g, .black)
      (join s' (p, .red) (.node (x, .red) A B) D) U))) m (insertSide cb s x p g h) := by
  have hg2 : Held V cb h₀ h k (join s (g, .black) (join s' (p, .red) (.node (x, .red) A B) D) U) :=
    hg.above.above
  by_cases hU : Black U
  swap
  · rcases U with _ | ⟨a, Ua, Ub⟩
    · exact absurd trivial hU
    obtain ⟨u, c⟩ := a
    obtain rfl : c = .red := by
      cases c with
      | red => rfl
      | black => exact absurd rfl hU
    obtain ⟨h', e, hgood⟩ := Held.insertSide_red (x := x) hg2
    obtain ⟨-, -, hrUa, hrUb⟩ := hrU
    have hr1 : Rules (join s' (p, .black) (.node (x, .red) A B) D) (n + 1) :=
      rules_join_black.mpr ⟨n, rfl, hr, hrD⟩
    have hr2 : Rules (.node (u, .black) Ua Ub) (n + 1) := ⟨n, rfl, hrUa, hrUb⟩
    obtain ⟨l, r, hlr⟩ : ∃ l r, join s (g, Color.red) (join s' (p, .black)
        (.node (x, .red) A B) D) (join .left (u, .black) Ua Ub) = .node (g, .red) l r := by
      cases s <;> exact ⟨_, _, rfl⟩
    refine ⟨k.length, by omega, k, l, r, n + 1, rfl, ?_, ?_, ?_, hk, ?_⟩
    · rw [e, ← hlr]
      exact hgood
    · rw [e]
    · rw [e, ← hlr]
      exact rules_join_red.mpr ⟨black_join.mpr rfl, rfl, hr1, hr2⟩
    rw [e, ← hlr]
    refine inorder_plug_congr ?_
    cases s <;> cases s' <;> rfl
  rcases Side.eq_or_eq_other s s' with rfl | rfl
  · obtain ⟨h', e, hgood⟩ := hg2.insertSide_outer hcb hU
    refine ⟨k.length + 1, Nat.lt_succ_self _, ⟨s', (p, .black), join s' (g, .red) D U⟩ :: k, A, B,
      n, rfl, ?_, ?_, ?_, ⟨?_, hk⟩, ?_⟩
    · rw [e]
      exact hgood.below
    · rw [e]
      rfl
    · exact hr
    · exact rules_join_red.mpr ⟨hD, hU, hrD, hrU⟩
    rw [e, plug]
    refine inorder_plug_congr ?_
    cases s' <;> simp [Frame.fill, join, inorder]
  obtain ⟨A', B', hAB⟩ := node_eq_join s (x, Color.red) A B
  rw [hAB, join_other] at hg2
  rw [hAB, rules_join_red] at hr
  obtain ⟨hbA, hbB, hrA, hrB⟩ := hr
  obtain ⟨h', e, hgood⟩ := hg2.insertSide_inner hcb hU
  obtain ⟨l, r, hlr⟩ : ∃ l r, join s (p, Color.red) D A' = .node (p, .red) l r := by
    cases s with
    | left => exact ⟨D, A', rfl⟩
    | right => exact ⟨A', D, rfl⟩
  refine ⟨k.length + 1, Nat.lt_succ_self _, ⟨s, (x, .black), join s (g, .red) B' U⟩ :: k, l, r,
    n, rfl, ?_, ?_, ?_, ⟨?_, hk⟩, ?_⟩
  · rw [e, ← hlr]
    exact hgood.below
  · rw [e]
    rfl
  · rw [e, ← hlr]
    exact rules_join_red.mpr ⟨hD, hbA, hrD, hrA⟩
  · exact rules_join_red.mpr ⟨hbB, hU, hrB, hrU⟩
  rw [e, ← hlr, hAB, plug]
  refine inorder_plug_congr ?_
  cases s <;> simp [Frame.fill, join, inorder, Side.other]

/-- **A pass of the loop.** -/
theorem Pending.step (hcb : V → Lawful cb) {st : Heap β × ℕ × ℕ} (hp : Pending V cb h₀ L m st) :
    (insertStep cb st = .inr st.1 ∧ Settled V cb h₀ L st.1) ∨
      ∃ st', insertStep cb st = .inl st' ∧ ∃ m' < m, Pending V cb h₀ L m' st' := by
  obtain ⟨h, x, parent⟩ := st
  obtain ⟨k, l, r, n, rfl, hg, hup, hr, hk, rfl⟩ := hp
  subst hup
  rcases k with _ | ⟨f, k⟩
  · exact .inl ⟨rfl, [], x, l, r, n, hg, hr, hk, .inl rfl, rfl⟩
  obtain ⟨s', ⟨p, c⟩, D⟩ := f
  have habove := hg.above.isBlack
  rw [Frame.fill, top_join, black_join] at habove
  cases c with
  | black =>
    refine .inl ⟨?_, _, x, l, r, n, hg, hr, hk, .inr rfl, rfl⟩
    show insertStep cb (h, x, p) = _
    rw [insertStep]
    simp [habove.mpr]
  | red =>
    obtain ⟨hD, hrD, htop, hk⟩ := hk
    rcases k with _ | ⟨f, k⟩
    · exact htop.elim
    obtain ⟨s, ⟨g, c⟩, U⟩ := f
    obtain rfl : c = .black := htop
    obtain ⟨hrU, hk⟩ := hk
    have hred : h.isBlack p = false :=
      Bool.eq_false_iff.mpr fun e => absurd (habove.mp e) (by decide)
    have hparent : h.parent p = g := by
      rw [Heap.parent, hg.node_up, Node.parent_of]
      rfl
    have hg0 : g ≠ 0 := hg.above.above.ne_zero
    obtain ⟨hside, hside'⟩ := At.child_up hg.above.links (by
      rw [Frame.fill]
      cases s' <;> simp [join])
    rw [Frame.fill, top_join] at hside hside'
    refine .inr ⟨insertSide cb s x p g h, ?_, ?_⟩
    · show insertStep cb (h, x, p) = _
      rw [insertStep]
      simp only [hred, hparent, if_neg hg0]
      cases s with
      | left => exact if_pos hside
      | right => exact if_neg hside'
    · exact hg.insertSide_pending hcb hr hD hrD hrU hk

/-- **The loop.** -/
theorem Pending.run (hcb : V → Lawful cb) {st : Heap β × ℕ × ℕ} (hp : Pending V cb h₀ L m st)
    (hn : m < n) : ∃ h', Repeat.run (insertStep cb) n st = some h' ∧ Settled V cb h₀ L h' :=
  Repeat.run_of_rank (Pending V cb h₀ L) _
    (fun _ _ hp => (hp.step hcb).symm.imp_right fun hend => ⟨_, hend⟩) hp hn

theorem Settled.valid (hs : Settled V cb h₀ L h) :
    ∃ T, Held V cb h₀ (h.setColor h.root .black) [] T ∧ Valid T ∧ inorder T = L := by
  obtain ⟨k, x, l, r, n, hg, hr, hk, htop, rfl⟩ := hs
  obtain ⟨n', hr'⟩ : ∃ n', Rules (plug k (.node (x, .red) l r)) n' := by
    rcases htop with rfl | htop
    · exact ⟨n, hr⟩
    · exact (valid_plug.mpr ⟨n, hr, hk, absurd htop⟩).2
  have hgood := held_plug.mpr hg
  have hne : plug k (.node (x, .red) l r) ≠ .nil := fun e => by
    have hmem : x ∈ inorder (plug k (.node (x, Color.red) l r)) := by
      rw [inorder_plug]
      simp [inorder]
    rw [e] at hmem
    cases hmem
  refine ⟨_, ?_, valid_paint hr', inorder_paint⟩
  rw [hgood.links.root_eq]
  exact hgood.painted hne

/-- **An insertion keeps the rules and the links, and the values if they are claimed**, and puts the
node into the order at the link. -/
theorem insert_spec (hcb : V → Lawful cb) (hg : Held V cb h₀ h k .nil) (hv : Valid (plug k .nil))
    (hx0 : x ≠ 0) (hx : x ∉ addrs k) (hs : ∀ f k', k = f :: k' → f.side = s)
    (hn : k.length + 1 < n) :
    ∃ h' T, rbInsertAugmented n cb x (rbLinkNode x (up k) s h) = some h' ∧ Held V cb h₀ h' [] T ∧
      Valid T ∧ inorder T = before k ++ x :: after k := by
  have hl := hg.link hx0 hx hs
  have hparent : (rbLinkNode x (up k) s h).parent x = up k := by
    have hnode := hl.links.ctx _ List.mem_cons_self
    rw [Heap.parent, hnode, Node.parent_of]
  obtain ⟨h1, hprop, hgood⟩ := hl.propagate hn
  obtain ⟨m, rfl, hk, -⟩ := valid_plug.mp hv
  have hpend : Pending V cb h₀ (inorder (plug k (.node (x, .red) .nil .nil))) k.length
      (h1, x, up k) :=
    ⟨k, .nil, .nil, 0, rfl, hgood.above, rfl, ⟨trivial, trivial, rfl, rfl⟩, hk, rfl⟩
  obtain ⟨h2, hrun, hset⟩ := hpend.run hcb (Nat.lt_of_succ_lt hn)
  obtain ⟨T, hT, hvT, hL⟩ := hset.valid
  refine ⟨_, T, ?_, hT, hvT, ?_⟩
  · rw [rbInsertAugmented]
    simp only [hparent]
    rw [show rbAugmentPropagate n cb x _ = some h1 from hprop, Option.bind_eq_bind,
      Option.bind_some, hrun]
    rfl
  · rw [hL, inorder_plug]
    simp [inorder]

end AvoryOS.Rb
