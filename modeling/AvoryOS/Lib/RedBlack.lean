import AvoryOS.Lib.LinkedTree

/-!
# Red-black trees and augmented trees

The red-black rules: a red node has black children, and every way down passes as many black nodes.
A place in a tree keeps the rules if it takes a subtree of a given black height.

An augmented tree has a value for each node, computed from the node and the values of its
children.  If a rotation does not change the value of a subtree, then the value depends on the
order of the nodes only, and the values above a rotation stay right.

## Main definitions

* `Rules t n` — the rules, with black height `n`; `Valid` — with a black root.
* `Short t n` — a subtree that is one black node short of height `n + 1`.
* `Hole k n` — the rules outside of a place.
* `value f t`, `Exact f aug t` — values, and that every node has its own.
* `RotationLaw f` — rotations do not change values.
-/

namespace RedBlack

open LinkedTree

inductive Color
  | red
  | black
  deriving DecidableEq

abbrev Tree := BinaryTree (ℕ × Color)

variable {s : Side} {x y : ℕ} {c : Color} {t l r a b : Tree} {k : List (Frame Color)} {n : ℕ}

/-! ## The rules -/

def Black : Tree → Prop
  | .nil => True
  | .node a _ _ => a.2 = .black

/-- A red node has black children, and every way down passes `n` black nodes. -/
def Rules : Tree → ℕ → Prop
  | .nil, n => n = 0
  | .node (_, .red) l r, n => Black l ∧ Black r ∧ Rules l n ∧ Rules r n
  | .node (_, .black) l r, n => ∃ m, n = m + 1 ∧ Rules l m ∧ Rules r m

def Valid (t : Tree) : Prop := Black t ∧ ∃ n, Rules t n

theorem black_join : Black (join s (x, c) a b) ↔ c = .black := by cases s <;> rfl

theorem rules_join_red : Rules (join s (x, .red) a b) n ↔
    Black a ∧ Black b ∧ Rules a n ∧ Rules b n := by
  cases s <;> simp only [join, Rules]
  tauto

theorem rules_join_black : Rules (join s (x, .black) a b) n ↔
    ∃ m, n = m + 1 ∧ Rules a m ∧ Rules b m := by
  cases s <;> simp only [join, Rules]
  exact exists_congr fun m => and_congr_right fun _ => and_comm

theorem Rules.ne_nil (h : Rules t (n + 1)) : t ≠ .nil := by
  rintro rfl
  cases h

def paint : Tree → Tree
  | .nil => .nil
  | .node a l r => .node (a.1, .black) l r

@[simp] theorem inorder_paint : inorder (paint t) = inorder t := by cases t <;> rfl

theorem black_paint : Black (paint t) := by
  cases t with
  | nil => trivial
  | node a l r => rfl

theorem valid_paint (h : Rules t n) : Valid (paint t) := by
  cases t with
  | nil => exact ⟨trivial, n, h⟩
  | node a l r =>
    obtain ⟨x, c⟩ := a
    cases c with
    | red => exact ⟨rfl, n + 1, n, rfl, h.2.2.1, h.2.2.2⟩
    | black => exact ⟨rfl, n, h⟩

/-- A subtree that is one black node short: it has black height `n`, or a red root over subtrees
with black height `n`. -/
def Short : Tree → ℕ → Prop
  | .node (_, .red) l r, n => Rules l n ∧ Rules r n
  | t, n => Rules t n

theorem Short.rules (hs : Short t n) (ht : Black t) : Rules t n := by
  cases t with
  | nil => exact hs
  | node p l r =>
    obtain ⟨x, c⟩ := p
    obtain rfl : c = .black := ht
    exact hs

theorem Rules.short (hr : Rules t n) : Short t n := by
  cases t with
  | nil => exact hr
  | node p l r =>
    obtain ⟨x, c⟩ := p
    cases c with
    | red => exact ⟨hr.2.2.1, hr.2.2.2⟩
    | black => exact hr

theorem short_join_red : Short (join s (x, .red) a b) n ↔ Rules a n ∧ Rules b n := by
  cases s with
  | left => exact Iff.rfl
  | right => exact and_comm

def TopBlack : List (Frame Color) → Prop
  | [] => False
  | f :: _ => f.node.2 = .black

/-- The rules outside of a place that takes a subtree with black height `n`. -/
def Hole : List (Frame Color) → ℕ → Prop
  | [], _ => True
  | ⟨_, (_, .red), sib⟩ :: k, n => Black sib ∧ Rules sib n ∧ TopBlack k ∧ Hole k n
  | ⟨_, (_, .black), sib⟩ :: k, n => Rules sib n ∧ Hole k (n + 1)

/-- **The rules of a tree, seen from a place.** -/
theorem valid_plug : Valid (plug k t) ↔ ∃ n, Rules t n ∧ Hole k n ∧ (¬TopBlack k → Black t) := by
  induction k generalizing t with
  | nil =>
    refine ⟨fun ⟨hb, n, h⟩ => ⟨n, h, trivial, fun _ => hb⟩, fun ⟨n, h, _, hb⟩ => ⟨hb id, n, h⟩⟩
  | cons f k ih =>
    obtain ⟨s, ⟨x, c⟩, sib⟩ := f
    rw [plug, ih]
    cases c with
    | red =>
      refine exists_congr fun n => ?_
      simp only [Frame.fill, rules_join_red, black_join, Hole]
      tauto
    | black =>
      simp only [Frame.fill, rules_join_black, black_join, TopBlack, implies_true,
        and_true, not_true_eq_false, false_imp_iff]
      refine ⟨?_, ?_⟩
      · rintro ⟨_, ⟨m, rfl, ht, hs⟩, hk⟩
        exact ⟨m, ht, hs, hk⟩
      · rintro ⟨m, ht, hs, hk⟩
        exact ⟨m + 1, ⟨m, rfl, ht, hs⟩, hk⟩

theorem hole_readdress {k' : List (Frame Color)} {sib : Tree} :
    Hole (k ++ ⟨s, (x, c), sib⟩ :: k') n ↔ Hole (k ++ ⟨s, (y, c), sib⟩ :: k') n := by
  induction k generalizing n with
  | nil => cases c <;> exact Iff.rfl
  | cons f k ih =>
    obtain ⟨s', ⟨z, d⟩, sib'⟩ := f
    have htop : TopBlack (k ++ ⟨s, (x, c), sib⟩ :: k') ↔
        TopBlack (k ++ ⟨s, (y, c), sib⟩ :: k') := by cases k <;> exact Iff.rfl
    cases d with
    | red => simp [Hole, htop, ih]
    | black => simp [Hole, ih]

/-! ## Values -/

variable {β : Type} {f : ℕ → Option β → Option β → β} {aug aug' : ℕ → β} {v w : Option β}

/-- The value of a node from the value on a side and the value on the other side. -/
def combine (f : ℕ → Option β → Option β → β) (s : Side) (x : ℕ) (near far : Option β) : β :=
  match s with
  | .left => f x near far
  | .right => f x far near

def value (f : ℕ → Option β → Option β → β) : Tree → Option β
  | .nil => none
  | .node a l r => some (f a.1 (value f l) (value f r))

/-- Every node has the value of its subtree. -/
def Exact (f : ℕ → Option β → Option β → β) (aug : ℕ → β) : Tree → Prop
  | .nil => True
  | .node a l r => aug a.1 = f a.1 (value f l) (value f r) ∧ Exact f aug l ∧ Exact f aug r

/-- Every node outside of a place has the value of its subtree, if `v` is the value there. -/
def ExactCtx (f : ℕ → Option β → Option β → β) (aug : ℕ → β) : List (Frame Color) → Option β → Prop
  | [], _ => True
  | g :: k, v => aug g.node.1 = combine f g.side g.node.1 v (value f g.sib) ∧ Exact f aug g.sib ∧
      ExactCtx f aug k (some (combine f g.side g.node.1 v (value f g.sib)))

/-- The same of the nodes beside the way only. -/
def ExactSibs (f : ℕ → Option β → Option β → β) (aug : ℕ → β) (k : List (Frame Color)) : Prop :=
  ∀ g ∈ k, Exact f aug g.sib

/-- The value of a subtree does not change by a rotation. -/
def RotationLaw (f : ℕ → Option β → Option β → β) : Prop :=
  ∀ x y u v w, f y (some (f x u v)) w = f x u (some (f y v w))

variable {p : ℕ × Color}

theorem value_join : value f (join s p a b) =
    some (combine f s p.1 (value f a) (value f b)) := by cases s <;> rfl

theorem exact_join : Exact f aug (join s p a b) ↔
    aug p.1 = combine f s p.1 (value f a) (value f b) ∧ Exact f aug a ∧ Exact f aug b := by
  cases s <;> simp only [join, Exact, combine]
  tauto

theorem value_rotate (hf : RotationLaw f) {q : ℕ × Color} {d : Tree} :
    value f (join s q (join s p a b) d) = value f (join s p a (join s q b d)) := by
  cases s with
  | left => exact congrArg some (hf ..)
  | right => exact congrArg some (hf ..).symm

theorem exact_plug : Exact f aug (plug k t) ↔ Exact f aug t ∧ ExactCtx f aug k (value f t) := by
  induction k generalizing t with
  | nil => exact ⟨fun h => ⟨h, trivial⟩, fun h => h.1⟩
  | cons g k ih =>
    rw [plug, ih, Frame.fill, exact_join, value_join, ExactCtx]
    tauto

theorem ExactCtx.sibs (h : ExactCtx f aug k v) : ExactSibs f aug k := by
  induction k generalizing v with
  | nil => exact fun g hg => (by cases hg)
  | cons g k ih =>
    intro g' hg
    rcases List.mem_cons.mp hg with rfl | hg
    · exact h.2.1
    · exact ih h.2.2 g' hg

theorem Exact.congr (h : Exact f aug t) (hm : ∀ z ∈ inorder t, aug' z = aug z) :
    Exact f aug' t := by
  induction t with
  | nil => trivial
  | node a l r ihl ihr =>
    simp only [inorder, List.mem_append, List.mem_cons] at hm
    exact ⟨(hm _ (.inr (.inl rfl))).trans h.1, ihl h.2.1 fun z hz => hm z (.inl hz),
      ihr h.2.2 fun z hz => hm z (.inr (.inr hz))⟩

theorem ExactCtx.congr (h : ExactCtx f aug k v) (hm : ∀ z ∈ addrs k, aug' z = aug z) :
    ExactCtx f aug' k v := by
  induction k generalizing v with
  | nil => trivial
  | cons g k ih =>
    simp only [addrs, List.mem_cons, List.mem_append] at hm
    exact ⟨(hm _ (.inl rfl)).trans h.1, h.2.1.congr fun z hz => hm z (.inr (.inl hz)),
      ih h.2.2 fun z hz => hm z (.inr (.inr hz))⟩

variable {f' : ℕ → Option β → Option β → β}

theorem value_congr (h : ∀ z ∈ inorder t, f' z = f z) : value f' t = value f t := by
  induction t with
  | nil => rfl
  | node a l r ihl ihr =>
    simp only [inorder, List.mem_append, List.mem_cons] at h
    rw [value, value, h _ (.inr (.inl rfl)), ihl fun z hz => h z (.inl hz),
      ihr fun z hz => h z (.inr (.inr hz))]

theorem Exact.congr_fun (he : Exact f aug t)
    (h : ∀ z ∈ inorder t, f' z = f z) : Exact f' aug t := by
  induction t with
  | nil => trivial
  | node a l r ihl ihr =>
    simp only [inorder, List.mem_append, List.mem_cons] at h
    refine ⟨?_, ihl he.2.1 fun z hz => h z (.inl hz), ihr he.2.2 fun z hz => h z (.inr (.inr hz))⟩
    rw [value_congr fun z hz => h z (.inl hz), value_congr fun z hz => h z (.inr (.inr hz)),
      h _ (.inr (.inl rfl))]
    exact he.1

theorem Exact.value_eq (h : Exact f aug t) (h0 : 0 ∉ inorder t) :
    value f t = if top t = 0 then none else some (aug (top t)) := by
  cases t with
  | nil => rfl
  | node a l r =>
    have hne : top (.node a l r) ≠ 0 := fun e => h0 (e ▸ mem_top (by simp))
    rw [if_neg hne, value, ← h.1]
    rfl

end RedBlack
