import AvoryOS.Rb.Unlink

/-!
# Erasure from the red-black tree

A node is taken out, and the values above are computed again.  If the node that left its place was
black, the subtree there is one black node short: the loop moves this up, or removes it with
rotations.
-/

namespace AvoryOS.Rb

open LinkedTree RedBlack List

variable {β : Type} {V : Prop} {cb : Callback β} {h h₀ : Heap β} {s s' : Side} {x p o f q n m : ℕ}
  {c c1 c2 : Color} {k : List (Frame Color)} {t A B D D1 D2 : RedBlack.Tree} {L : List ℕ}

/-! ## One pass -/

/-- A red sibling goes above the parent; the pass goes on with a black one. -/
theorem Held.eraseSide_red (hcb : V → Lawful cb)
    (hg : Held V cb h₀ h k (join s (p, c) t (join s (o, .red) B D))) (hB : Black B) :
    ∃ h', eraseSide cb s p h = eraseSide cb s p h' ∧
      Held V cb h₀ h' k (join s (o, .black) (join s (p, .red) t B) D) := by
  have ho : h.child p s.other = o := hg.child_far.trans top_join
  have hred : h.isBlack o = false := ho ▸ hg.isBlack_far_red
  have hgood := Held.rotated hcb ((hg.setColor_far .black).setColor .red)
  have hplace : Held V cb h₀ _ (⟨s, (o, .black), D⟩ :: k) (join s (p, .red) t B) := hgood.below
  refine ⟨_, ?_, hgood⟩
  rw [eraseSide, eraseSide]
  simp [ho, hred, hplace.isBlack_far.mpr hB]

theorem Held.eraseSide_black (hg : Held V cb h₀ h k (join s (p, c) t (join s (o, .black) B D)))
    (hB : Black B) (hD : Black D) : ∃ h', eraseSide cb s p h = (h', p, up k, false) ∧
      Held V cb h₀ h' k (join s (p, c) t (join s (o, .red) B D)) := by
  have hfar := held_far.mpr hg
  have ho : h.child p s.other = o := hg.child_far.trans top_join
  have hblack : h.isBlack o = true := ho ▸ hg.isBlack_far.mpr (black_join.mpr rfl)
  have hgood := hg.setColor_far .red
  refine ⟨_, ?_, hgood⟩
  rw [eraseSide]
  simp [ho, hblack, hfar.ne_zero,
    hfar.isBlack_near.mpr hB, hfar.isBlack_far.mpr hD, hgood.parent_eq]

/-- The last rotation: the sibling takes the place and the colour of the parent. -/
theorem Held.eraseLast (hcb : V → Lawful cb)
    (hg : Held V cb h₀ h k (join s (p, c) t (join s (o, c1) B (join s' (f, c2) D1 D2)))) :
    Held V cb h₀ (eraseLast cb s p o h) k
      (join s (o, c) (join s (p, .black) t B) (join s' (f, .black) D1 D2)) := by
  have hg1 := hg.setColor_far c
  have hfar := held_far.mpr hg1
  have hchild : (h.setColor o c).child o s.other = f := hfar.child_far.trans top_join
  have hf0 : f ≠ 0 := (held_far.mpr hfar).ne_zero
  have hg2 := held_far.mp (hfar.setColor_far .black)
  rw [Rb.eraseLast]
  simp only [hg.color_eq, ne_eq, hfar.ne_zero, hchild, hf0]
  exact Held.rotated hcb (hg2.setColor .black)

theorem Held.eraseRotate_far (hcb : V → Lawful cb)
    (hg : Held V cb h₀ h k (join s (p, c) t (join s (o, .black) B (join s' (f, .red) D1 D2)))) :
    Held V cb h₀ (eraseRotate cb s p o h) k
      (join s (o, c) (join s (p, .black) t B) (join s' (f, .black) D1 D2)) := by
  rw [eraseRotate, (held_far.mpr hg).isBlack_far_red]
  exact hg.eraseLast hcb

/-- A black far nephew and a red near one, which goes above the sibling first. -/
theorem Held.eraseRotate_near (hcb : V → Lawful cb)
    (hg : Held V cb h₀ h k (join s (p, c) t (join s (o, .black) (join s (q, .red) A B) D)))
    (hD : Black D) : Held V cb h₀ (eraseRotate cb s p o h) k
      (join s (q, c) (join s (p, .black) t A) (join s (o, .black) B D)) := by
  have hfar := held_far.mpr hg
  have hq : h.child o s = q := hfar.child_near.trans top_join
  have hq0 : q ≠ 0 := (Held.below (g := ⟨s, (o, .black), D⟩) hfar).ne_zero
  have hrot := held_far.mp (((hfar.setColor_near .black).setColor .red).rotated_near hcb)
  have hother : (rotate cb s.other o ((h.setColor q .black).setColor o .red)).child p s.other =
      q := hrot.child_far.trans top_join
  rw [eraseRotate, hfar.isBlack_far.mpr hD]
  simp only [hq, ne_eq, hq0, not_false_eq_true, if_true, hother]
  exact hrot.eraseLast hcb

theorem Held.eraseSide_rotate (hg : Held V cb h₀ h k (join s (p, c) t (join s (o, .black) B D)))
    (hBD : ¬(Black B ∧ Black D)) :
    eraseSide cb s p h = (eraseRotate cb s p o h, (eraseRotate cb s p o h).root, p, true) := by
  have hfar := held_far.mpr hg
  have ho : h.child p s.other = o := hg.child_far.trans top_join
  have hblack : h.isBlack o = true := ho ▸ hg.isBlack_far.mpr (black_join.mpr rfl)
  have hb : (h.isBlack (h.child o s) && h.isBlack (h.child o s.other)) = false :=
    Bool.eq_false_iff.mpr fun e => by
      rw [Bool.and_eq_true, hfar.isBlack_near, hfar.isBlack_far] at e
      exact hBD e
  rw [eraseSide]
  simp [ho, hblack, hfar.ne_zero, hb]

/-! ## The loop -/

/-- The tree in the loop, with a bound on the passes left: the subtree at the place is short; or a
rotation has ended the loop. -/
def Deficient (V : Prop) (cb : Callback β) (h₀ : Heap β) (L : List ℕ) (m : ℕ)
    (st : Heap β × ℕ × ℕ × Bool) : Prop :=
  (st.2.2.2 = false ∧ ∃ k t n, (Black t → k.length ≤ m) ∧ Held V cb h₀ st.1 k t ∧ st.2.1 = top t ∧
    st.2.2.1 = up k ∧ Short t n ∧ Hole k (n + 1) ∧ inorder (plug k t) = L) ∨
  (st.2.2.2 = true ∧ st.2.1 = st.1.root ∧ ∃ T, Held V cb h₀ st.1 [] T ∧ Valid T ∧ inorder T = L)

/-- The tree after the loop, with the node that becomes black. -/
def Repaired (V : Prop) (cb : Callback β) (h₀ : Heap β) (L : List ℕ) (r : Heap β × ℕ) : Prop :=
  ∃ T, Held V cb h₀ (if r.2 ≠ 0 then r.1.setColor r.2 .black else r.1) [] T ∧ Valid T ∧
    inorder T = L

/-- Painting a short subtree black repairs the tree, if the subtree is red or the whole tree. -/
theorem repaired_of_short (hg : Held V cb h₀ h k t) (hs : Short t n) (hk : Hole k (n + 1))
    (hend : ¬Black t ∨ k = []) : Repaired V cb h₀ (inorder (plug k t)) (h, top t) := by
  have hT : Held V cb h₀ (if top t ≠ 0 then h.setColor (top t) .black else h) k (paint t) := by
    by_cases ht : t = .nil
    · subst ht
      exact hg
    rw [if_pos (hg.links.top_ne_zero ht)]
    exact hg.painted ht
  have hv : Valid (plug k (paint t)) := by
    rcases hend with hred | rfl
    · refine valid_plug.mpr ⟨n + 1, ?_, hk, fun _ => black_paint⟩
      cases t with
      | nil => exact absurd trivial hred
      | node a l r =>
        obtain ⟨x, c⟩ := a
        cases c with
        | red => exact ⟨n, rfl, hs.1, hs.2⟩
        | black => exact absurd rfl hred
    refine ⟨black_paint, ?_⟩
    cases t with
    | nil => exact ⟨n, hs⟩
    | node a l r =>
      obtain ⟨x, c⟩ := a
      cases c with
      | red => exact ⟨n + 1, n, rfl, hs.1, hs.2⟩
      | black => exact ⟨n, hs⟩
  exact ⟨_, held_plug.mpr hT, hv, inorder_plug_congr inorder_paint⟩

theorem Held.eraseSide_deficient (hcb : V → Lawful cb)
    (hg : Held V cb h₀ h (⟨s, (p, c), join s (o, .black) B D⟩ :: k) t) (hr : Rules t n)
    (hk : Hole (⟨s, (p, c), join s (o, .black) B D⟩ :: k) (n + 1)) (hm : 0 < m)
    (hlen : c = .black → k.length < m) :
    ∃ m' < m, Deficient V cb h₀ (inorder (plug k (join s (p, c) t (join s (o, .black) B D)))) m'
      (eraseSide cb s p h) := by
  have hg' : Held V cb h₀ h k (join s (p, c) t (join s (o, .black) B D)) := hg.above
  obtain ⟨hrB, hrD, hk'⟩ : Rules B n ∧ Rules D n ∧
      ((c = .red ∧ TopBlack k ∧ Hole k (n + 1)) ∨ (c = .black ∧ Hole k (n + 2))) := by
    cases c with
    | red =>
      obtain ⟨-, hro, htop, hk⟩ := hk
      obtain ⟨_, e, hrB, hrD⟩ := rules_join_black.mp hro
      cases e
      exact ⟨hrB, hrD, .inl ⟨rfl, htop, hk⟩⟩
    | black =>
      obtain ⟨hro, hk⟩ := hk
      obtain ⟨_, e, hrB, hrD⟩ := rules_join_black.mp hro
      cases e
      exact ⟨hrB, hrD, .inr ⟨rfl, hk⟩⟩
  by_cases hBD : Black B ∧ Black D
  · obtain ⟨hB, hD⟩ := hBD
    obtain ⟨h', e, hgood⟩ := hg'.eraseSide_black hB hD
    have hro : Rules (join s (o, .red) B D) n := rules_join_red.mpr ⟨hB, hD, hrB, hrD⟩
    have hL : inorder (plug k (join s (p, c) t (join s (o, .red) B D))) =
        inorder (plug k (join s (p, c) t (join s (o, .black) B D))) :=
      inorder_plug_congr (by cases s <;> rfl)
    rw [e]
    rcases hk' with ⟨rfl, -, hk1⟩ | ⟨rfl, hk1⟩
    · exact ⟨0, hm, .inl ⟨rfl, k, _, n, fun hb => absurd (black_join.mp hb) (by decide), hgood,
        by rw [top_join], rfl, short_join_red.mpr ⟨hr, hro⟩, hk1, hL⟩⟩
    · exact ⟨k.length, hlen rfl, .inl ⟨rfl, k, _, n + 1, fun _ => Nat.le_refl _, hgood,
        by rw [top_join], rfl, (rules_join_black.mpr ⟨n, rfl, hr, hro⟩).short, hk1, hL⟩⟩
  -- after the rotations the whole tree keeps the rules
  have hdone : ∀ {o' f' : ℕ} {s' : Side} {E F1 F2 : Tree},
      Held V cb h₀ (eraseRotate cb s p o h) k
        (join s (o', c) (join s (p, .black) t E) (join s' (f', .black) F1 F2)) →
      Rules E n → Rules F1 n → Rules F2 n →
      inorder (join s (o', c) (join s (p, .black) t E) (join s' (f', .black) F1 F2)) =
        inorder (join s (p, c) t (join s (o, .black) B D)) →
      ∃ m' < m, Deficient V cb h₀ (inorder (plug k (join s (p, c) t (join s (o, .black) B D)))) m'
        (eraseRotate cb s p o h, (eraseRotate cb s p o h).root, p, true) := by
    intro o' f' s' E F1 F2 hgood hE hF1 hF2 hL
    have h1 : Rules (join s (p, .black) t E) (n + 1) := rules_join_black.mpr ⟨n, rfl, hr, hE⟩
    have h2 : Rules (join s' (f', .black) F1 F2) (n + 1) := rules_join_black.mpr ⟨n, rfl, hF1, hF2⟩
    refine ⟨0, hm, .inr ⟨rfl, rfl, _, held_plug.mpr hgood, valid_plug.mpr ?_,
      inorder_plug_congr hL⟩⟩
    rcases hk' with ⟨rfl, htop, hk1⟩ | ⟨rfl, hk1⟩
    · exact ⟨n + 1, rules_join_red.mpr ⟨black_join.mpr rfl, black_join.mpr rfl, h1, h2⟩, hk1,
        absurd htop⟩
    · exact ⟨n + 2, rules_join_black.mpr ⟨n + 1, rfl, h1, h2⟩, hk1, fun _ => black_join.mpr rfl⟩
  rw [hg'.eraseSide_rotate hBD]
  by_cases hD : Black D
  swap
  · cases D with
    | nil => exact absurd trivial hD
    | node a D1 D2 =>
      obtain ⟨f, c1⟩ := a
      cases c1 with
      | black => exact absurd rfl hD
      | red =>
        have hg₂ : Held V cb h₀ h k (join s (p, c) t (join s (o, .black) B
          (join .left (f, .red) D1 D2))) := hg'
        refine hdone (hg₂.eraseRotate_far hcb) hrB hrD.2.2.1 hrD.2.2.2 ?_
        cases s <;> simp [join, inorder]
  cases B with
  | nil => exact absurd ⟨trivial, hD⟩ hBD
  | node a B1 B2 =>
    obtain ⟨q, c1⟩ := a
    cases c1 with
    | black => exact absurd ⟨rfl, hD⟩ hBD
    | red =>
      obtain ⟨near, far, e⟩ := node_eq_join s (q, Color.red) B1 B2
      rw [e] at hg' hrB hdone ⊢
      obtain ⟨-, -, hnear, hfar⟩ := rules_join_red.mp hrB
      refine hdone (hg'.eraseRotate_near hcb hD) hnear hfar hrD ?_
      cases s <;> simp [join, inorder]

theorem Held.eraseSide_any {sib : RedBlack.Tree} (hcb : V → Lawful cb)
    (hg : Held V cb h₀ h (⟨s, (p, c), sib⟩ :: k) t) (hr : Rules t n)
    (hk : Hole (⟨s, (p, c), sib⟩ :: k) (n + 1)) (hm : k.length < m) :
    ∃ m' < m,
      Deficient V cb h₀ (inorder (plug k (join s (p, c) t sib))) m' (eraseSide cb s p h) := by
  have hrs : Rules sib (n + 1) := by
    cases c with
    | red => exact hk.2.1
    | black => exact hk.1
  obtain ⟨⟨o, oc⟩, B, D, rfl⟩ := exists_join hrs.ne_nil s
  cases oc with
  | black => exact hg.eraseSide_deficient hcb hr hk (Nat.zero_lt_of_lt hm) fun _ => hm
  | red =>
    cases c with
    | red => exact absurd (black_join.mp hk.1) (by decide)
    | black =>
      obtain ⟨hB, -, hrB, hrD⟩ := rules_join_red.mp hrs
      obtain ⟨h', e, hgood⟩ := Held.eraseSide_red hcb hg.above hB
      obtain ⟨⟨b, bc⟩, B1, B2, rfl⟩ := exists_join hrB.ne_nil s
      obtain rfl : bc = .black := black_join.mp hB
      have hplace : Held V cb h₀ h' (⟨s, (p, .red), join s (b, .black) B1 B2⟩ ::
          ⟨s, (o, .black), D⟩ :: k) t := Held.below (Held.below hgood)
      obtain ⟨m', hlt, hdef⟩ := hplace.eraseSide_deficient hcb hr
        ⟨hB, hrB, rfl, hrD, hk.2⟩ (Nat.zero_lt_of_lt hm) fun e => absurd e (by decide)
      refine ⟨m', hlt, ?_⟩
      convert hdef using 1
      refine inorder_plug_congr ?_
      cases s <;> simp [Frame.fill, join, inorder]

/-- **A pass of the loop.** -/
theorem Deficient.step (hcb : V → Lawful cb) {st : Heap β × ℕ × ℕ × Bool}
    (hd : Deficient V cb h₀ L m st) : (∃ r, eraseStep cb st = .inr r ∧ Repaired V cb h₀ L r) ∨
      ∃ st', eraseStep cb st = .inl st' ∧ ∃ m' < m, Deficient V cb h₀ L m' st' := by
  obtain ⟨h, node, parent, stop⟩ := st
  rcases hd with ⟨hstop, k, t, n, hm, hg, hnode, hparent, hs, hk, rfl⟩ |
    ⟨hstop, hnode, T, hg, ⟨-, n, hr⟩, rfl⟩
  swap
  · dsimp only at hstop hnode hg
    subst hstop hnode
    refine .inl ⟨(h, h.root), rfl, ?_⟩
    rw [hg.links.root_eq]
    exact repaired_of_short hg hr.short trivial (.inr rfl)
  subst hstop hnode hparent
  have hend : (h.isBlack (top t) = false ∨ top t = h.root) → (¬Black t ∨ k = []) →
      ∃ r, eraseStep cb (h, top t, up k, false) = .inr r ∧
        Repaired V cb h₀ (inorder (plug k t)) r := by
    intro hcond hend
    refine ⟨(h, top t), ?_, repaired_of_short hg hs hk hend⟩
    rw [eraseStep]
    rcases hcond with e | e <;> simp [e]
  by_cases hb : Black t
  swap
  · exact .inl (hend (.inl (Bool.eq_false_iff.mpr fun e => hb (hg.isBlack.mp e))) (.inl hb))
  cases k with
  | nil => exact .inl (hend (.inr hg.links.root_eq.symm) (.inr rfl))
  | cons g k =>
    obtain ⟨s, ⟨p, c⟩, sib⟩ := g
    have hne : top t ≠ h.root := by
      rw [hg.links.root_eq]
      exact (hg.links.mem_ne_top (rootOf_mem _ k (top t))).symm
    have hr := hs.rules hb
    have hsib : sib ≠ .nil := by
      cases c with
      | red => exact hk.2.1.ne_nil
      | black => exact hk.1.ne_nil
    have htop : top sib ≠ top t :=
      hg.links.mem_ne_top (mem_cons_of_mem _ (mem_append_left _ (mem_top hsib)))
    have hg' : Held V cb h₀ h k (join s (p, c) t sib) := hg.above
    refine .inr ⟨eraseSide cb s p h, ?_, hg.eraseSide_any hcb hr hk (hm hb)⟩
    rw [eraseStep]
    simp only [hg.isBlack.mpr hb, ne_eq, hne]
    cases s with
    | left => exact if_pos hg'.child_near
    | right => exact if_neg fun e => htop (hg'.child_far.symm.trans e)

/-- **`__rb_erase_color` repairs a short subtree.** -/
theorem eraseColor_spec (hcb : V → Lawful cb) (hg : Held V cb h₀ h k t) (hr : Rules t m)
    (hk : Hole k (m + 1)) (hn : k.length < n) :
    ∃ h' T, rbEraseColor n cb (top t) (up k) h = some h' ∧ Held V cb h₀ h' [] T ∧ Valid T ∧
      inorder T = inorder (plug k t) := by
  have hd : Deficient V cb h₀ (inorder (plug k t)) k.length (h, top t, up k, false) :=
    .inl ⟨rfl, k, t, m, fun _ => Nat.le_refl _, hg, rfl, rfl, hr.short, hk, rfl⟩
  obtain ⟨⟨h', node⟩, hrun, T, hT, hv, hL⟩ :=
    Repeat.run_of_rank (Deficient V cb h₀ _) _ (fun _ _ hd => (hd.step hcb).symm) hd hn
  refine ⟨_, T, ?_, hT, hv, hL⟩
  rw [rbEraseColor, hrun]
  rfl

/-! ## Taking a node out -/

theorem unlink_rules (hv : Valid (plug k (join s (x, c) t .nil))) :
    ∃ m, Rules t m ∧ ((c = .red ∧ Black t ∧ Hole k m) ∨ (c = .black ∧ Hole k (m + 1))) := by
  obtain ⟨n, hr, hk, -⟩ := valid_plug.mp hv
  cases c with
  | red =>
    obtain ⟨hb, -, hr, -⟩ := rules_join_red.mp hr
    exact ⟨n, hr, .inl ⟨rfl, hb, hk⟩⟩
  | black =>
    obtain ⟨m, rfl, hr, -⟩ := rules_join_black.mp hr
    exact ⟨m, hr, .inr ⟨rfl, hk⟩⟩

theorem Held.unlink (hg : Held V cb h h k (join s (x, c) t .nil)) :
    Loose V cb h (unlinkNode h x (top t)) k t := by
  obtain ⟨hat, hsame, haug⟩ := unlinkNode_links hg.links
  refine ⟨hat, fun hV f hf => ?_, fun z hz0 hz hzk => ?_⟩
  · obtain ⟨hex, hctx⟩ := hg.exact hV f hf
    rw [haug]
    exact ⟨(exact_join.mp hex).2.1, hctx.sibs⟩
  · rw [hsame z hz0 hz hzk, haug]
    exact ⟨rfl, rfl⟩

/-- The end of `rb_erase_augmented`: the values, and the colours if a black node left. -/
theorem Loose.repair (hcb : V → Lawful cb) (hl : Loose V cb h₀ h k t) (hr : Rules t m)
    (hc : (c = .red ∧ Black t ∧ Hole k m) ∨ (c = .black ∧ Hole k (m + 1))) (hn : k.length < n) :
    ∃ h' T, ((rbAugmentPropagate n cb (up k) h).bind fun h =>
        if c = .black then rbEraseColor n cb (top t) (up k) h else some h) = some h' ∧
      Held V cb h₀ h' [] T ∧ Valid T ∧ inorder T = inorder (plug k t) := by
  obtain ⟨h₁, hprop, hgood⟩ := hl.propagate hn
  rw [hprop]
  rcases hc with ⟨rfl, hb, hk⟩ | ⟨rfl, hk⟩
  · exact ⟨h₁, _, rfl, held_plug.mpr hgood, valid_plug.mpr ⟨m, hr, hk, fun _ => hb⟩, rfl⟩
  · exact eraseColor_spec hcb hgood hr hk hn

theorem Held.erase_one (hcb : V → Lawful cb) (hg : Held V cb h h k (join s (x, c) t .nil))
    (hv : Valid (plug k (join s (x, c) t .nil))) (hn : k.length < n) :
    ∃ h' T, ((rbAugmentPropagate n cb (up k) (unlinkNode h x (top t))).bind fun h =>
        if c = .black then rbEraseColor n cb (top t) (up k) h else some h) = some h' ∧
      Held V cb h h' [] T ∧ Valid T ∧ inorder T = before k ++ inorder t ++ after k := by
  obtain ⟨m, hr, hc⟩ := unlink_rules hv
  rw [← inorder_plug]
  exact hg.unlink.repair hcb hr hc hn

/-- The next node takes the place of a node with two children; only the values on the way up from
its old place are not computed yet.  The node that leaves may have changed. -/
theorem Held.take {kr : List (Frame Color)} {l r : RedBlack.Tree} {y : ℕ}
    (hg : Held V cb h h k (.node (x, c) l (plug kr (.node (y, c1) .nil r)))) (hl : l ≠ .nil) :
    ∃ h' : Heap β, takePlace (unlinkNode h y (top r)) x y (top r)
        (up (kr ++ ⟨.right, (x, c), l⟩ :: k)) = (h', up (kr ++ ⟨.right, (y, c), l⟩ :: k)) ∧
      Loose V cb (h.update x (h'.node x)) (h'.augment cb y) (kr ++ ⟨.right, (y, c), l⟩ :: k) r := by
  have hplace : Held V cb h h (kr ++ ⟨.right, (x, c), l⟩ :: k) (join .right (y, c1) r .nil) :=
    held_append.mpr (Held.below hg)
  obtain ⟨hat, hsame, haug⟩ := unlinkNode_links hplace.links
  have hat' := (at_append.mp hat).up
  -- the next node is not in the tree any more
  have hperm : (inorder (join .right (y, c1) r .nil) ++ addrs (kr ++ ⟨.right, (x, c), l⟩ :: k)).Perm
    (y :: (inorder r ++ addrs (kr ++ ⟨.right, (x, c), l⟩ :: k))) := inorder_join_addrs
  obtain ⟨hy, -⟩ := nodup_cons.mp (hperm.nodup_iff.mp hplace.links.nodup)
  rw [mem_append, not_or] at hy
  have hy' : y ∉ x :: (inorder (plug kr r) ++ (inorder l ++ addrs k)) := by
    simp only [addrs_append, addrs, mem_append, mem_cons] at hy
    simp only [mem_cons, mem_append, mem_inorder_plug]
    tauto
  have hnode : (unlinkNode h y (top r)).node y =
      ⟨up (kr ++ ⟨.right, (x, c), l⟩ :: k), 0, top r, c1⟩ :=
    (hsame y hplace.ne_zero hy.1 hy.2).trans hplace.node_eq
  have hup : kr ≠ [] → up (kr ++ ⟨.right, (x, c), l⟩ :: k) ≠ x := fun hkr e => by
    obtain ⟨f, kr, rfl⟩ := exists_cons_of_ne_nil hkr
    obtain ⟨-, hn, -⟩ := nodup_append.mp hplace.links.nodup
    have hx : x ∈ addrs (kr ++ ⟨.right, (x, c), l⟩ :: k) := by
      rw [addrs_append]
      exact mem_append_right _ mem_cons_self
    refine (nodup_cons.mp hn).1 (mem_append_right _ ?_)
    rw [show f.node.1 = x from e]
    exact hx
  have hcase : (up (kr ++ ⟨.right, (x, c), l⟩ :: k) = x ∧ top r = top (plug kr r)) ∨
      (up (kr ++ ⟨.right, (x, c), l⟩ :: k) ≠ x ∧ plug kr r ≠ .nil) := by
    cases kr with
    | nil => exact .inl ⟨rfl, rfl⟩
    | cons f kr =>
      refine .inr ⟨hup (by simp), fun e => ?_⟩
      have hmem : f.node.1 ∈ inorder (plug (f :: kr) r) := mem_inorder_plug.mpr (.inr mem_cons_self)
      rw [e] at hmem
      cases hmem
  obtain ⟨hat2, hsame2, haug2, hparent⟩ := takePlace_links
    (up (kr ++ ⟨.right, (x, c), l⟩ :: k)) hat' hl hplace.ne_zero hy' hnode hcase
  have hz : ∀ z, z ≠ y → ((takePlace (unlinkNode h y (top r)) x y (top r)
      (up (kr ++ ⟨.right, (x, c), l⟩ :: k))).1.augment cb y).aug z = h.aug z := fun z hz => by
    rw [aug_augment_of_ne hz, haug2, haug]
  refine ⟨_, Prod.ext rfl ?_, ?_, fun hV f hf => ?_, fun z hz0 hzr hzk => ?_⟩
  · rw [hparent]
    cases kr with
    | nil => exact if_pos rfl
    | cons f kr => exact if_neg (hup (by simp))
  · rw [Heap.node_augment, Heap.root_augment]
    exact at_append.mpr (At.down hat2)
  · obtain ⟨hex, hctx⟩ := hplace.exact hV f hf
    refine ⟨(exact_join.mp hex).2.1.congr fun z hm => hz z (ne_of_mem_of_not_mem hm hy.1),
      fun g hg => ?_⟩
    obtain ⟨g', hg', e⟩ : ∃ g' ∈ kr ++ ⟨.right, (x, c), l⟩ :: k, g'.sib = g.sib := by
      rcases mem_append.mp hg with hg | hg
      · exact ⟨g, mem_append_left _ hg, rfl⟩
      rcases mem_cons.mp hg with rfl | hg
      · exact ⟨_, mem_append_right _ mem_cons_self, rfl⟩
      · exact ⟨g, mem_append_right _ (mem_cons_of_mem _ hg), rfl⟩
    rw [← e]
    exact (hctx.sibs g' hg').congr fun z hm =>
      hz z (ne_of_mem_of_not_mem (mem_addrs_of_mem_sib hg' hm) hy.2)
  simp only [addrs_append, addrs, mem_append, mem_cons, not_or] at hzk
  obtain ⟨hzkr, hzy, hzl, hzk⟩ := hzk
  refine ⟨?_, hz z hzy⟩
  rw [Heap.node_augment]
  by_cases hzx : z = x
  · rw [hzx, Heap.node_update_self]
  have hzQ : z ∉ inorder (plug kr r) := fun hm =>
    (mem_inorder_plug.mp hm).elim hzr hzkr
  rw [Heap.node_update_of_ne hzx, hsame2 z hz0 hzy hzQ hzl hzk]
  refine hsame z hz0 hzr ?_
  simp only [addrs_append, addrs, mem_append, mem_cons, not_or]
  exact ⟨hzkr, hzx, hzl, hzk⟩

/-- **An erasure keeps the rules and the links, and the values if they are claimed**, and takes the
node out of the order.  Outside of the tree, only the node itself may change. -/
theorem erase_spec {l r : RedBlack.Tree} (hcb : V → Lawful cb)
    (hg : Held V cb h h k (.node (x, c) l r)) (hv : Valid (plug k (.node (x, c) l r)))
    (hn : (inorder (plug k (.node (x, c) l r))).length ≤ n) :
    ∃ h' T N, rbEraseAugmented n cb x h = some h' ∧ Held V cb (h.update x N) h' [] T ∧ Valid T ∧
      inorder T = before k ++ (inorder l ++ inorder r) ++ after k := by
  have hg' : Held V cb h h k (join .left (x, c) l r) := hg
  have hlen := length_le_addrs k
  rw [length_inorder_plug] at hn
  simp only [inorder, length_append, length_cons] at hn
  have hcl : h.child x .left = top l := hg'.child_near
  have hcr : h.child x .right = top r := hg'.child_far
  have h0 : ∀ t : Tree, 0 ∉ inorder t → (top t = 0 ↔ t = .nil) := fun t h0 =>
    ⟨fun e => by_contra fun ht => h0 (e ▸ mem_top ht), fun e => e ▸ rfl⟩
  have hnz := hg.links.nonzero
  simp only [inorder, mem_append, mem_cons, not_or] at hnz
  rw [rbEraseAugmented]
  simp only [hcl, hcr, h0 l hnz.1.1, h0 r hnz.1.2.2, hg'.parent_eq, hg'.color_eq]
  by_cases hl : l = .nil
  · subst hl
    obtain ⟨h', T, hrun, hT, hvT, hL⟩ := Held.erase_one (s := .right) (n := n) hcb hg hv (by omega)
    refine ⟨h', T, h.node x, hrun, ?_, hvT, hL⟩
    rwa [Heap.update_self]
  by_cases hr : r = .nil
  · subst hr
    obtain ⟨h', T, hrun, hT, hvT, hL⟩ := Held.erase_one (s := .left) (n := n) hcb hg hv (by omega)
    refine ⟨h', T, h.node x, ?_, ?_, hvT, by simpa [inorder] using hL⟩
    · rw [if_neg hl]
      exact hrun
    · rwa [Heap.update_self]
  rw [if_neg hl, if_neg hr]
  have hplace : Held V cb h h (⟨.right, (x, c), l⟩ :: k) r := Held.below hg
  obtain ⟨kr, ⟨y, c1⟩, r', rfl, hside, hdeep⟩ :=
    deepest_spec (s := .left) (n := n) hplace.links hr (by omega)
  have hplace' : Held V cb h h (kr ++ ⟨.right, (x, c), l⟩ :: k) (join .right (y, c1) r' .nil) :=
    held_append.mpr hplace
  obtain ⟨h₁, htake, hloose⟩ := Held.take hg hl
  have hv' : Valid (plug (kr ++ ⟨.right, (x, c), l⟩ :: k) (join .right (y, c1) r' .nil)) := by
    rw [plug_append]
    exact hv
  obtain ⟨m, hr', hc⟩ := unlink_rules hv'
  simp only [hole_readdress (y := y)] at hc
  rw [length_inorder_plug] at hn
  simp only [join, inorder, length_append, length_cons] at hn
  have hlenr := length_le_addrs kr
  obtain ⟨h', T, hrun, hT, hvT, hL⟩ := hloose.repair (n := n) hcb hr' hc (by
    rw [length_append, length_cons]
    omega)
  refine ⟨h', T, h₁.node x, ?_, hT, hvT, ?_⟩
  · have hcy : h.child y .right = top r' := hplace'.child_near
    rw [hdeep]
    simp only [Option.bind_eq_bind, Option.bind_some, hcy, hplace'.parent_eq, hplace'.color_eq,
      htake]
    exact hrun
  · rw [hL, plug_append, plug]
    simp [Frame.fill, join, inorder, inorder_plug, before_eq_nil hside]

end AvoryOS.Rb
