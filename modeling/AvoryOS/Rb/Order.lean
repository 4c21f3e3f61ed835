import AvoryOS.Rb.Insert
import AvoryOS.Rb.Erase

/-!
# The red-black tree as a sequence

The iterators of the tree go through its nodes in order, and children before parents.  With the
changes of the tree this says what the tree is for: it holds a sequence, with any callback.

A rotation computes the values of the two nodes it turns, and no values above.  So the values stay
right if a rotation does not change the value of a subtree, as for a sum or a minimum over its
nodes; and they do not for a value such as the height.
-/

namespace AvoryOS.Rb

open LinkedTree RedBlack List Heap

variable {β : Type} {V : Prop} {cb : Callback β} {h : Heap β} {s : Side} {x p n : ℕ} {c : Color}
  {k : List (Frame Color)} {t T A B l r : RedBlack.Tree}

/-! ## The iterators -/

theorem child_node {a : ℕ × Color} {l r : BinaryTree (ℕ × Color)}
    (hat : At h.node h.root k (.node a l r)) :
    h.child a.1 .left = top l ∧ h.child a.1 .right = top r := by
  have hnode := (holds_join.mp (show At h.node h.root k (join .left a l r) from hat).tree).1
  rw [child, child, hnode]
  exact ⟨rfl, rfl⟩

/-- The last node on a side is the first in the other direction. -/
theorem deepest_toward (hat : At h.node h.root k t) (ht : t ≠ .nil) (hn : (inorder t).length ≤ n) :
    deepest n s.other h (top t) = some ((toward s t).headD 0) := by
  obtain ⟨kr, a, B, e, hside, hrun⟩ := deepest_spec hat ht hn
  rw [hrun, e, toward_plug hside, join_other, toward_join]
  cases s <;> rfl

/-- The way up to the first node that has the place on the other side. -/
theorem climb_spec (hat : At h.node h.root k t) (ht : t ≠ .nil) (hn : k.length < n) :
    Repeat.run (climbStep h s) n (top t) = some ((ahead s k).headD 0) := by
  induction k generalizing t n with
  | nil =>
    obtain ⟨n, rfl⟩ := Nat.exists_eq_succ_of_ne_zero (Nat.ne_zero_of_lt hn)
    obtain ⟨a, near, far, rfl⟩ := exists_join ht s
    have hparent : h.parent a.1 = 0 := by
      rw [parent, (holds_join.mp hat.tree).1, Node.parent_of]
      rfl
    rw [top_join, Repeat.run, climbStep, hparent]
    cases s <;> rfl
  | cons g k ih =>
    obtain ⟨n, rfl⟩ := Nat.exists_eq_succ_of_ne_zero (Nat.ne_zero_of_lt hn)
    obtain ⟨a, near, far, rfl⟩ := exists_join ht s
    have hparent : h.parent a.1 = g.node.1 := by
      rw [parent, (holds_join.mp hat.tree).1, Node.parent_of]
      rfl
    have hg0 : g.node.1 ≠ 0 := fun e =>
      hat.nonzero (mem_append_right _ (e ▸ mem_cons_self))
    obtain ⟨hc, hc'⟩ := At.child_up hat ht
    rw [top_join] at hc hc'
    have hfill : g.fill (join s a near far) ≠ .nil := by
      rw [Frame.fill]
      cases g.side <;> simp [join]
    rw [top_join, Repeat.run, climbStep, hparent]
    obtain ⟨s', b, sib⟩ := g
    rcases Side.eq_or_eq_other s s' with rfl | rfl
    · rw [if_pos ⟨hg0, hc⟩, ahead_same]
      have := ih hat.up hfill (Nat.lt_of_succ_lt_succ hn)
      rwa [Frame.fill, top_join] at this
    · rw [Side.other_other] at hc'
      rw [if_neg fun h => hc' h.2, ahead_other]
      rfl

/-- **`rb_next` and `rb_prev`.** -/
theorem rbStep_spec (hat : At h.node h.root k (join s (x, c) A B))
    (hn : (inorder A).length ≤ n) (hk : k.length < n) :
    rbStep n s h x = some ((toward s A ++ ahead s k).headD 0) := by
  have hnode := (holds_join.mp hat.tree).1
  have hx0 : x ≠ 0 := fun e =>
    hat.nonzero (mem_append_left _ (mem_inorder_join.mpr (.inl e.symm)))
  have hparent : h.parent x = up k := by rw [parent, hnode, Node.parent_of]
  have hchild : h.child x s = top A := by rw [child, hnode, Node.child_of]
  have hup : up k ≠ x := fun e => by
    rcases up_eq_or_mem k with h0 | hm
    · exact hx0 (e ▸ h0)
    · exact (nodup_append.mp hat.nodup).2.2 x (mem_inorder_join.mpr (.inl rfl)) _ hm e.symm
  rw [rbStep, hparent, if_neg hup, hchild]
  by_cases hA : A = .nil
  · subst hA
    have hclimb := climb_spec (s := s) hat (by cases s <;> simp [join]) hk
    rw [top_join] at hclimb
    rw [hclimb]
    cases s <;> rfl
  · have hat' : At h.node h.root (⟨s, (x, c), B⟩ :: k) A := At.down hat
    rw [if_pos (hat'.top_ne_zero hA), deepest_toward hat' hA hn, headD_append (toward_ne_nil hA)]

theorem leftDeepest_spec (hat : At h.node h.root k t) (ht : t ≠ .nil)
    (hn : (inorder t).length ≤ n) :
    rbLeftDeepestNode n h (top t) = some ((postorder t).headD 0) := by
  induction n generalizing k t with
  | zero =>
    have := mem_top ht
    rw [length_eq_zero_iff.mp (Nat.le_zero.mp hn)] at this
    cases this
  | succ n ih =>
    cases t with
    | nil => exact absurd rfl ht
    | node a l r =>
      obtain ⟨hl, hr⟩ := child_node hat
      have hatl : At h.node h.root (⟨.left, a, r⟩ :: k) l := At.down hat
      have hatr : At h.node h.root (⟨.right, a, l⟩ :: k) r := At.down hat
      rw [inorder, length_append, length_cons] at hn
      show Repeat.run _ (n + 1) a.1 = _
      rw [Repeat.run]
      simp only [hl, hr]
      by_cases hlnil : l = .nil
      · subst hlnil
        by_cases hrnil : r = .nil
        · subst hrnil
          rfl
        · rw [if_pos (hatr.top_ne_zero hrnil), postorder, postorder, nil_append,
            headD_append (postorder_ne_nil hrnil)]
          exact ih hatr hrnil (by omega)
      · rw [if_pos (hatl.top_ne_zero hlnil), postorder, append_assoc,
          headD_append (postorder_ne_nil hlnil)]
        exact ih hatl hlnil (by omega)

/-- **`rb_next_postorder`.** -/
theorem nextPostorder_spec (hat : At h.node h.root k t) (ht : t ≠ .nil)
    (hn : (addrs k).length ≤ n) : rbNextPostorder n h (top t) = some ((postAfter k).headD 0) := by
  obtain ⟨a, near, far, rfl⟩ := exists_join ht .left
  have ha0 : a.1 ≠ 0 := fun e =>
    hat.nonzero (mem_append_left _ (mem_inorder_join.mpr (.inl e.symm)))
  have hparent : h.parent a.1 = up k := by
    rw [parent, (holds_join.mp hat.tree).1, Node.parent_of]
  rw [top_join, rbNextPostorder, if_neg ha0, hparent]
  rcases k with _ | ⟨g, k⟩
  · rfl
  obtain ⟨s, b, sib⟩ := g
  obtain ⟨hc, hc'⟩ := At.child_up hat ht
  have hb0 : b.1 ≠ 0 := fun e =>
    hat.nonzero (mem_append_right _ (e ▸ mem_cons_self))
  have hnode := hat.ctx _ mem_cons_self
  cases s with
  | right => exact if_neg fun h => hc' h.2.1
  | left =>
    have hr : h.child b.1 .right = top sib := by rw [child, hnode]; rfl
    have hat' : At h.node h.root (⟨.right, b, join .left a near far⟩ :: k) sib := At.down hat.up
    by_cases hs : sib = .nil
    · subst hs
      exact if_neg fun h => h.2.2 hr
    simp only [addrs, length_cons, length_append] at hn
    have h0 : h.child b.1 .right ≠ 0 := hr ▸ hat'.top_ne_zero hs
    refine (if_pos ⟨hb0, hc, h0⟩).trans ?_
    rw [postAfter, headD_append (postorder_ne_nil hs)]
    show rbLeftDeepestNode n h (h.child b.1 .right) = _
    rw [hr]
    exact leftDeepest_spec hat' hs (by omega)

/-! ## The sequence -/

/-- An empty link: the root of an empty tree, or a side of a node without a child there. -/
def Link (h : Heap β) (T : RedBlack.Tree) (p : ℕ) (s : Side) : Prop :=
  (T = .nil ∧ p = 0) ∨ (p ∈ inorder T ∧ h.child p s = 0)

section

variable (hat : At h.node h.root [] T)
include hat

/-- An empty link is a place of the tree, next to its node. -/
theorem link_place (hl : Link h T p s) :
    ∃ k, T = plug k .nil ∧ up k = p ∧ (∀ f k', k = f :: k' → f.side = s) ∧
      (s = .left → (after k).headD 0 = p) ∧ (s = .right → (before k).getLastD 0 = p) := by
  rcases hl with ⟨rfl, rfl⟩ | ⟨hp, hc⟩
  · exact ⟨[], rfl, rfl, fun f k' e => (by cases e), fun _ => rfl, fun _ => rfl⟩
  obtain ⟨k, d, l, r, rfl⟩ := exists_plug hp
  obtain ⟨near, far, e⟩ := node_eq_join s (p, d) l r
  rw [e] at hat ⊢
  have hat' := at_plug.mp hat
  have hnear : near = .nil := by_contra fun hne => by
    rw [child, (holds_join.mp hat'.tree).1, Node.child_of] at hc
    exact (At.down (f := ⟨s, (p, d), far⟩) hat').top_ne_zero hne hc
  subst hnear
  refine ⟨⟨s, (p, d), far⟩ :: k, rfl, rfl, ?_, ?_, ?_⟩
  · rintro f k' e
    cases e
    rfl
  · rintro rfl
    rfl
  · rintro rfl
    simp [before]

theorem exists_place {L R : List ℕ} (hT : inorder T = L ++ x :: R) :
    ∃ k d l r, T = plug k (.node (x, d) l r) ∧ At h.node h.root k (.node (x, d) l r) ∧
      L = before k ++ inorder l ∧ R = inorder r ++ after k := by
  have hx : x ∈ inorder T := by
    rw [hT]
    simp
  obtain ⟨k, d, l, r, rfl⟩ := exists_plug hx
  have hsplit : inorder (plug k (.node (x, d) l r)) =
      (before k ++ inorder l) ++ x :: (inorder r ++ after k) := by
    rw [inorder_plug]
    simp [inorder]
  have hnodup := hat.nodup
  rw [addrs, append_nil, hsplit] at hnodup
  obtain ⟨hmem, -⟩ := nodup_cons.mp (nodup_middle.mp hnodup)
  rw [mem_append, not_or] at hmem
  rw [hsplit] at hT
  obtain ⟨e1, -, e2⟩ := (append_cons_inj_of_notMem hmem.1 hmem.2).mp hT
  exact ⟨k, d, l, r, rfl, at_plug.mp hat, e1.symm, e2.symm⟩

theorem rbEnd_spec (hn : (inorder T).length ≤ n) :
    rbEnd n s.other h = some ((toward s T).headD 0) := by
  rw [rbEnd, hat.root_eq]
  by_cases hT : T = .nil
  · subst hT
    cases s <;> rfl
  · rw [if_neg (show rootOf [] (top T) ≠ 0 from hat.top_ne_zero hT)]
    exact deepest_toward hat hT hn

theorem firstPostorder_spec (hn : (inorder T).length ≤ n) :
    rbFirstPostorder n h = some ((postorder T).headD 0) := by
  rw [rbFirstPostorder, hat.root_eq]
  by_cases hT : T = .nil
  · subst hT
    rfl
  · rw [if_neg (show rootOf [] (top T) ≠ 0 from hat.top_ne_zero hT)]
    exact leftDeepest_spec hat hT hn

theorem nextPostorder_append {L R : List ℕ}
    (hT : postorder T = L ++ x :: R) (hn : (inorder T).length ≤ n) :
    rbNextPostorder n h x = some (R.headD 0) := by
  have hx : x ∈ inorder T := by
    rw [← (postorder_perm T).mem_iff, hT]
    simp
  obtain ⟨k, d, l, r, rfl⟩ := exists_plug hx
  have hsplit : postorder (plug k (.node (x, d) l r)) =
      (postBefore k ++ postorder l ++ postorder r) ++ x :: postAfter k := by
    rw [postorder_plug]
    simp [postorder]
  have hnodup := hat.nodup
  rw [addrs, append_nil, ← (postorder_perm _).nodup_iff, hsplit] at hnodup
  obtain ⟨hmem, -⟩ := nodup_cons.mp (nodup_middle.mp hnodup)
  rw [mem_append, not_or] at hmem
  rw [hsplit] at hT
  obtain ⟨-, -, rfl⟩ := (append_cons_inj_of_notMem hmem.1 hmem.2).mp hT
  rw [length_inorder_plug] at hn
  exact nextPostorder_spec (at_plug.mp hat) (by simp) (by omega)

theorem neighbours_append {L R : List ℕ}
    (hT : inorder T = L ++ x :: R) (hn : (inorder T).length ≤ n) :
    rbNext n h x = some (R.headD 0) ∧ rbPrev n h x = some (L.getLastD 0) := by
  obtain ⟨k, d, l, r, rfl, hatk, rfl, rfl⟩ := exists_place hat hT
  have hk := length_le_addrs k
  rw [length_inorder_plug] at hn
  simp only [inorder, length_append, length_cons] at hn
  refine ⟨?_, ?_⟩
  · exact rbStep_spec hatk (by omega) (by omega)
  refine (rbStep_spec hatk (by omega) (by omega)).trans ?_
  rw [toward, ahead]
  simp

end

theorem erase_member {L R : List ℕ} (hcb : V → Lawful cb) (hg : Held V cb h h [] T) (hv : Valid T)
    (hT : inorder T = L ++ x :: R) (hn : (inorder T).length ≤ n) :
    ∃ h' T' N, rbEraseAugmented n cb x h = some h' ∧ Held V cb (h.update x N) h' [] T' ∧ Valid T' ∧
      inorder T' = L ++ R := by
  obtain ⟨k, d, l, r, rfl, -, rfl, rfl⟩ := exists_place hg.links hT
  obtain ⟨h', T', N, hrun, hg', hv', hL⟩ := erase_spec hcb (held_plug.mp hg) hv hn
  refine ⟨h', T', N, hrun, hg', hv', ?_⟩
  rw [hL]
  simp

/-- **The tree holds a sequence**, whatever the callback computes.  In a tree with its links and
rules:

* putting a node at an empty link puts it into the sequence there, and keeps the links and the
  rules;
* erasing a node takes it out of the sequence, and keeps the links and the rules;
* the iterators go through the sequence, and through all nodes with children before parents.

Both changes keep the values right as well if they were and rotations do not change them. -/
theorem rb_sequence (cb : Callback β) (h : Heap β) (T : RedBlack.Tree)
    (hat : At h.node h.root [] T) (hv : Valid T) (n : ℕ) (hn : (inorder T).length + 1 < n) :
    (∀ x p s, x ≠ 0 → x ∉ inorder T → Link h T p s → ∃ L R h' T', inorder T = L ++ R ∧
      (s = .left → R.headD 0 = p) ∧ (s = .right → L.getLastD 0 = p) ∧
      rbInsertAugmented n cb x (rbLinkNode x p s h) = some h' ∧ At h'.node h'.root [] T' ∧
      Valid T' ∧ inorder T' = L ++ x :: R ∧ (Lawful cb → Good cb h [] T → Good cb h' [] T')) ∧
    (∀ x L R, inorder T = L ++ x :: R → ∃ h' T', rbEraseAugmented n cb x h = some h' ∧
      At h'.node h'.root [] T' ∧ Valid T' ∧ inorder T' = L ++ R ∧
      (Lawful cb → Good cb h [] T → Good cb h' [] T')) ∧
    (rbFirst n h = some ((inorder T).headD 0) ∧ rbLast n h = some ((inorder T).getLastD 0) ∧
      ∀ x L R, inorder T = L ++ x :: R →
        rbNext n h x = some (R.headD 0) ∧ rbPrev n h x = some (L.getLastD 0)) ∧
    ((postorder T).Perm (inorder T) ∧ rbFirstPostorder n h = some ((postorder T).headD 0) ∧
      ∀ x L R, postorder T = L ++ x :: R → rbNextPostorder n h x = some (R.headD 0)) := by
  -- the values are claimed where they were right before and the callback has the rotation law
  have hg : Held (Lawful cb ∧ Good cb h [] T) cb h h [] T := At.held hat And.right
  refine ⟨fun x p s hx0 hx hl => ?_, fun x L R hT => ?_, ⟨?_, ?_, fun x L R hT => ?_⟩, ?_, ?_,
    fun x L R hT => ?_⟩
  · obtain ⟨k, hplug, rfl, hs, hleft, hright⟩ := link_place hat hl
    have hk := length_le_addrs k
    rw [hplug, length_inorder_plug] at hn
    have hgk : Held (Lawful cb ∧ Good cb h [] T) cb h h k .nil := by
      rw [← held_plug, ← hplug]
      exact hg
    obtain ⟨h', T', hrun, hg', hv', hL⟩ := insert_spec And.left hgk (hplug ▸ hv) hx0
      (fun hm => hx (hplug ▸ mem_inorder_plug.mpr (.inr hm))) hs (n := n) (by omega)
    refine ⟨before k, after k, h', T', ?_, hleft, hright, hrun, hg'.links, hv', hL,
      fun hcb hgood => hg'.good ⟨hcb, hgood⟩⟩
    rw [hplug, inorder_plug, inorder, append_nil]
  · obtain ⟨h', T', _, hrun, hg', hv', hL⟩ := erase_member And.left hg hv hT (n := n) (by omega)
    exact ⟨h', T', hrun, hg'.links, hv', hL, fun hcb hgood => hg'.good ⟨hcb, hgood⟩⟩
  · exact rbEnd_spec (s := .right) hat (by omega)
  · refine (rbEnd_spec (s := .left) hat (by omega)).trans ?_
    simp [toward]
  · exact neighbours_append hat hT (by omega)
  · exact postorder_perm T
  · exact firstPostorder_spec hat (by omega)
  · exact nextPostorder_append hat hT (by omega)

namespace FourNodes

def tree : RedBlack.Tree :=
  .node (1, .black) (.node (2, .black) (.node (4, .red) .nil .nil) .nil)
    (.node (3, .black) .nil .nil)

def nodes : ℕ → Node Color
  | 1 => ⟨0, 2, 3, .black⟩
  | 2 => ⟨1, 4, 0, .black⟩
  | 3 => ⟨1, 0, 0, .black⟩
  | _ => ⟨2, 0, 0, .red⟩

def heap (aug : ℕ → ℕ) : Heap ℕ := ⟨nodes, 1, aug⟩

def size : Callback ℕ := some fun _ l r => l.getD 0 + r.getD 0 + 1

def sizes : ℕ → ℕ
  | 1 => 4
  | 2 => 2
  | _ => 1

def height : Callback ℕ := some fun _ l r => max (l.getD 0) (r.getD 0) + 1

def heights : ℕ → ℕ
  | 1 => 3
  | 2 => 2
  | _ => 1

theorem links (aug : ℕ → ℕ) : At (heap aug).node (heap aug).root [] tree := by
  refine ⟨?_, fun e he => (by cases he), rfl, by decide, by decide⟩
  show ∀ e ∈ cells tree 0, nodes e.1 = e.2
  decide

theorem valid : Valid tree :=
  ⟨rfl, 2, 1, rfl, ⟨0, rfl, ⟨trivial, trivial, rfl, rfl⟩, rfl⟩, ⟨0, rfl, rfl, rfl⟩⟩

theorem size_lawful : Lawful size := by
  rintro f hf
  cases hf
  intro x y u v w
  simp only [Option.getD_some]
  omega

theorem good_size : Good size (heap sizes) [] tree := by
  refine ⟨links sizes, fun f hf => ?_⟩
  cases hf
  exact ⟨⟨rfl, ⟨rfl, ⟨rfl, trivial, trivial⟩, trivial⟩, ⟨rfl, trivial, trivial⟩⟩, trivial⟩

theorem good_height : Good height (heap heights) [] tree := by
  refine ⟨links heights, fun f hf => ?_⟩
  cases hf
  exact ⟨⟨rfl, ⟨rfl, ⟨rfl, trivial, trivial⟩, trivial⟩, ⟨rfl, trivial, trivial⟩⟩, trivial⟩

end FourNodes

open FourNodes in
/-- With the number of nodes as value: a fifth node goes in, and the root goes out. -/
theorem rb_sequence_size : At (heap sizes).node (heap sizes).root [] tree ∧ Valid tree ∧
    (∃ L R h' T', inorder tree = L ++ R ∧ R.headD 0 = 4 ∧
      rbInsertAugmented 6 size 5 (rbLinkNode 5 4 .left (heap sizes)) = some h' ∧
      Good size h' [] T' ∧ Valid T' ∧ inorder T' = L ++ 5 :: R) ∧
    (∃ h' T', rbEraseAugmented 6 size 1 (heap sizes) = some h' ∧ Good size h' [] T' ∧ Valid T' ∧
      inorder T' = [4, 2, 3]) ∧
    rbNext 6 (heap sizes) 2 = some 1 ∧ rbNextPostorder 6 (heap sizes) 2 = some 3 := by
  obtain ⟨hins, hera, ⟨-, -, hnext⟩, -, -, hpost⟩ :=
    rb_sequence size (heap sizes) tree (links sizes) FourNodes.valid 6 (by decide)
  obtain ⟨L, R, h', T', hL, hleft, -, hrun, -, hv, hT, hg⟩ :=
    hins 5 4 .left (by decide) (by decide) (.inr (by decide))
  obtain ⟨h2, T2, hrun2, -, hv2, hT2, hg2⟩ := hera 1 [4, 2] [3] rfl
  exact ⟨links sizes, FourNodes.valid,
    ⟨L, R, h', T', hL, hleft rfl, hrun, hg size_lawful good_size, hv, hT⟩,
    ⟨h2, T2, hrun2, hg2 size_lawful good_size, hv2, hT2⟩,
    (hnext 2 [4] [1, 3] rfl).1, hpost 2 [4] [3, 1] rfl⟩

theorem Good.aug_root {f : ℕ → Option β → Option β → β} (hg : Good (some f) h [] T)
    (hT : h.root ≠ 0) : h.aug h.root =
      f h.root (h.value (h.child h.root .left)) (h.value (h.child h.root .right)) := by
  have hroot : h.root = top T := hg.links.root_eq
  cases T with
  | nil => exact absurd hroot hT
  | node a l r =>
    obtain ⟨x, c⟩ := a
    obtain rfl : h.root = x := hroot
    have hg' : Held True (some f) h h [] (join .left (h.root, c) l r) := hg.held
    obtain ⟨⟨hx, hl, hr⟩, -⟩ := hg.exact f rfl
    have h0 := hg.links.nonzero
    simp only [inorder, mem_append, mem_cons, not_or] at h0
    have hcr : h.child h.root .right = top r := hg'.child_far
    rw [hg'.child_near, hcr, Heap.value, Heap.value, ← hl.value_eq h0.1.1, ← hr.value_eq h0.1.2.2]
    exact hx

open FourNodes in
/-- With the height as value, the root has a wrong value after an insertion. -/
theorem rb_height_stale :
    Good height (heap heights) [] tree ∧ Valid tree ∧ Link (heap heights) tree 4 .left ∧
    5 ∉ inorder tree ∧
    ∃ h', rbInsertAugmented 6 height 5 (rbLinkNode 5 4 .left (heap heights)) = some h' ∧
      (h'.root = 1 ∧ h'.aug 1 = 4 ∧ h'.aug (h'.child 1 .left) = 2 ∧
        h'.aug (h'.child 1 .right) = 1) ∧ ∀ T', ¬Good height h' [] T' := by
  have hrun : (rbInsertAugmented 6 height 5 (rbLinkNode 5 4 .left (heap heights))).map
      (fun h => (h.root, h.aug 1, h.child 1 .left, h.child 1 .right, h.aug 4, h.aug 3)) =
      some (1, 4, 4, 3, 2, 1) := by decide +kernel
  obtain ⟨h', e, hvals⟩ := Option.map_eq_some_iff.mp hrun
  simp only [Prod.mk.injEq] at hvals
  obtain ⟨hroot, h1, hl, hr, h4, h3⟩ := hvals
  refine ⟨good_height, FourNodes.valid, .inr (by decide), by decide, h', e,
    ⟨hroot, h1, by rw [hl, h4], by rw [hr, h3]⟩, fun T' hg => ?_⟩
  have hval := hg.aug_root (by rw [hroot]; decide)
  rw [hroot, h1, hl, hr, Heap.value, Heap.value, h4, h3] at hval
  exact absurd hval (by decide)

end AvoryOS.Rb
