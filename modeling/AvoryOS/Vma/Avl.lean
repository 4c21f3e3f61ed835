import AvoryOS.Vma.Tree
import Mathlib.Tactic.Common
import Mathlib.Tactic.Linarith
import Mathlib.Data.List.Sort

/-!
# The tree of regions is an AVL tree

Insertion and deletion keep the tree balanced, with exact heights and largest ends, and change the
nodes in order by the region that is put in or taken out.  A deletion keeps all nodes before the
deleted one, and either drops its node or moves the data of the next node into it.
-/

namespace AvoryOS.Vma

open List Vma.Tree

namespace Tree

/-- Heights and largest ends are exact, and the heights of two children differ by at most `1`. -/
def Avl : Tree → Prop
  | nil => True
  | node _ v m h l r =>
    m = max (max v.stop l.getMaxEnd) r.getMaxEnd ∧ h = 1 + max l.getHeight r.getHeight ∧
      l.getHeight ≤ r.getHeight + 1 ∧ r.getHeight ≤ l.getHeight + 1 ∧ l.Avl ∧ r.Avl

/-- A node with the height and the largest end that its children give. -/
def mk (p : ℕ) (v : Region) (l r : Tree) : Tree := updateNode (node p v 0 0 l r)

variable {p q s : ℕ} {v w new : Region} {m h : ℕ} {t l r a b c : Tree}

theorem updateNode_node : updateNode (node p v m h l r) = mk p v l r := rfl

@[simp] theorem getHeight_nil : nil.getHeight = 0 := rfl

@[simp] theorem getHeight_node : (node p v m h l r).getHeight = h := rfl

@[simp] theorem getHeight_mk : (mk p v l r).getHeight = 1 + max l.getHeight r.getHeight := rfl

@[simp] theorem entries_mk : (mk p v l r).entries = l.entries ++ (p, v) :: r.entries := rfl

@[simp] theorem left_mk : (mk p v l r).left = l := rfl

@[simp] theorem right_mk : (mk p v l r).right = r := rfl

@[simp] theorem start_mk : (mk p v l r).start = v.start := rfl

@[simp] theorem getBalance_mk : (mk p v l r).getBalance = (l.getHeight : ℤ) - r.getHeight := rfl

theorem avl_mk : (mk p v l r).Avl ↔ l.getHeight ≤ r.getHeight + 1 ∧
    r.getHeight ≤ l.getHeight + 1 ∧ l.Avl ∧ r.Avl :=
  ⟨fun h => h.2.2, fun h => ⟨rfl, rfl, h⟩⟩

theorem Avl.node_eq (ha : (node p v m h l r).Avl) : node p v m h l r = mk p v l r := by
  obtain ⟨rfl, rfl, -⟩ := ha
  rfl

theorem Avl.exists_mk (ha : t.Avl) (h0 : 0 < t.getHeight) :
    ∃ p v l r, t = mk p v l r ∧ l.getHeight ≤ r.getHeight + 1 ∧ r.getHeight ≤ l.getHeight + 1 ∧
      l.Avl ∧ r.Avl := by
  cases t with
  | nil => exact absurd h0 (Nat.lt_irrefl 0)
  | node p v m h l r =>
    obtain ⟨rfl, rfl, h1, h2, hl, hr⟩ := ha
    exact ⟨p, v, l, r, rfl, h1, h2, hl, hr⟩

/-! ## Rotations -/

theorem rightRotate_mk : (mk p v (mk q w a b) c).rightRotate = mk q w a (mk p v b c) := rfl

theorem leftRotate_mk : (mk p v a (mk q w b c)).leftRotate = mk q w (mk p v a b) c := rfl

@[simp] theorem entries_updateNode (t : Tree) : t.updateNode.entries = t.entries := by
  cases t <;> rfl

@[simp] theorem entries_rightRotate (t : Tree) : t.rightRotate.entries = t.entries := by
  rcases t with - | ⟨p, v, m, h, - | ⟨q, w, m', h', a, b⟩, c⟩
  · rfl
  · rfl
  · simp [rightRotate, entries]

@[simp] theorem entries_leftRotate (t : Tree) : t.leftRotate.entries = t.entries := by
  rcases t with - | ⟨p, v, m, h, a, - | ⟨q, w, m', h', b, c⟩⟩
  · rfl
  · rfl
  · simp [leftRotate, entries]

@[simp] theorem entries_rotateLeftChild (t : Tree) : t.rotateLeftChild.entries = t.entries := by
  cases t <;> simp [rotateLeftChild, entries]

@[simp] theorem entries_rotateRightChild (t : Tree) : t.rotateRightChild.entries = t.entries := by
  cases t <;> simp [rotateRightChild, entries]

@[simp] theorem entries_balanceInsert (t : Tree) : (balanceInsert s t).entries = t.entries := by
  rw [balanceInsert]
  split_ifs <;> simp

@[simp] theorem entries_balanceDelete (t : Tree) : (balanceDelete t).entries = t.entries := by
  rw [balanceDelete]
  split_ifs <;> simp

theorem balanceDelete_of_balanced (h1 : l.getHeight ≤ r.getHeight + 1)
    (h2 : r.getHeight ≤ l.getHeight + 1) : balanceDelete (mk p v l r) = mk p v l r := by
  rw [balanceDelete, if_neg, if_neg, if_neg, if_neg]
  all_goals rw [getBalance_mk]; omega

theorem balanceDelete_left (hl : l.Avl) (hr : r.Avl) (hh : l.getHeight = r.getHeight + 2) :
    (balanceDelete (mk p v l r)).Avl ∧ ((balanceDelete (mk p v l r)).getHeight = l.getHeight ∨
      (balanceDelete (mk p v l r)).getHeight = l.getHeight + 1 ∧ l.getBalance = 0) := by
  obtain ⟨q, w, a, b, rfl, hab, hba, ha, hb⟩ := hl.exists_mk (by omega)
  simp only [getHeight_mk] at hh
  by_cases hlt : a.getHeight < b.getHeight
  swap
  · have hrot : balanceDelete (mk p v (mk q w a b) r) = mk q w a (mk p v b r) := by
      rw [balanceDelete, if_pos, rightRotate_mk]
      simp only [getBalance_mk, getHeight_mk, left_mk]
      omega
    simp only [hrot, avl_mk, getHeight_mk, getBalance_mk, ha, hb, hr, true_and, and_true]
    omega
  obtain ⟨z, u, b1, b2, rfl, hb1, hb2, hB1, hB2⟩ := hb.exists_mk (by omega)
  simp only [getHeight_mk] at hh hlt hba
  have hrot : balanceDelete (mk p v (mk q w a (mk z u b1 b2)) r) =
      mk z u (mk q w a b1) (mk p v b2 r) := by
    rw [balanceDelete, if_neg, if_pos]
    · rfl
    all_goals simp only [getBalance_mk, getHeight_mk, left_mk]; omega
  simp only [hrot, avl_mk, getHeight_mk, getBalance_mk, ha, hB1, hB2, hr, and_true]
  omega

theorem balanceDelete_right (hl : l.Avl) (hr : r.Avl) (hh : r.getHeight = l.getHeight + 2) :
    (balanceDelete (mk p v l r)).Avl ∧ ((balanceDelete (mk p v l r)).getHeight = r.getHeight ∨
      (balanceDelete (mk p v l r)).getHeight = r.getHeight + 1 ∧ r.getBalance = 0) := by
  obtain ⟨q, w, a, b, rfl, hab, hba, ha, hb⟩ := hr.exists_mk (by omega)
  simp only [getHeight_mk] at hh
  by_cases hlt : b.getHeight < a.getHeight
  swap
  · have hrot : balanceDelete (mk p v l (mk q w a b)) = mk q w (mk p v l a) b := by
      rw [balanceDelete, if_neg, if_neg, if_pos, leftRotate_mk]
      all_goals simp only [getBalance_mk, getHeight_mk, right_mk]; omega
    simp only [hrot, avl_mk, getHeight_mk, getBalance_mk, hl, ha, hb, and_true]
    omega
  obtain ⟨z, u, a1, a2, rfl, ha1, ha2, hA1, hA2⟩ := ha.exists_mk (by omega)
  simp only [getHeight_mk] at hh hlt hab
  have hrot : balanceDelete (mk p v l (mk q w (mk z u a1 a2) b)) =
      mk z u (mk p v l a1) (mk q w a2 b) := by
    rw [balanceDelete, if_neg, if_neg, if_neg, if_pos]
    · rfl
    all_goals simp only [getBalance_mk, getHeight_mk, right_mk]; omega
  simp only [hrot, avl_mk, getHeight_mk, getBalance_mk, hl, hA1, hA2, hb, and_true]
  omega

/-! ## Insertion -/

/-- The higher child is on the side of `s`. -/
def Leans (s : ℕ) (t : Tree) : Prop :=
  ∃ p v l r, t = mk p v l r ∧
    (s < v.start ∧ l.getHeight = r.getHeight + 1 ∨ v.start < s ∧ r.getHeight = l.getHeight + 1)

theorem balanceInsert_of_balanced (h1 : l.getHeight ≤ r.getHeight + 1)
    (h2 : r.getHeight ≤ l.getHeight + 1) : balanceInsert s (mk p v l r) = mk p v l r := by
  rw [balanceInsert, if_neg, if_neg, if_neg, if_neg]
  all_goals rw [getBalance_mk]; omega

/-- Insertion rotates a child that leans to `s` as deletion does. -/
theorem balanceInsert_eq (hs : l.getHeight = r.getHeight + 2 ∧ l.Leans s ∨
      r.getHeight = l.getHeight + 2 ∧ r.Leans s) :
    balanceInsert s (mk p v l r) = balanceDelete (mk p v l r) := by
  rcases hs with ⟨hh, q, w, a, b, rfl, hs⟩ | ⟨hh, q, w, a, b, rfl, hs⟩
  all_goals
    rw [balanceInsert, balanceDelete]
    split_ifs
    all_goals first
      | rfl
      | simp only [getBalance_mk, getHeight_mk, left_mk, right_mk, start_mk] at *; omega

theorem Leans.getBalance_ne (h : t.Leans s) : t.getBalance ≠ 0 := by
  obtain ⟨p, v, l, r, rfl, h⟩ := h
  rw [getBalance_mk]
  omega

/-- **Insertion keeps the tree balanced**; where the tree grows, it leans to the new node. -/
theorem insertNode_avl (ha : t.Avl) (hne : ∀ e ∈ t.entries, e.2.start ≠ new.start) :
    (insertNode p new t).Avl ∧ ((insertNode p new t).getHeight = t.getHeight ∨
      (insertNode p new t).getHeight = t.getHeight + 1 ∧
        (t.getHeight = 0 ∨ (insertNode p new t).Leans new.start)) := by
  induction t with
  | nil =>
    exact ⟨⟨by simp [getMaxEnd], rfl, by decide, by decide, trivial, trivial⟩, .inr ⟨rfl, .inl rfl⟩⟩
  | node q v m h l r ihl ihr =>
    obtain ⟨rfl, rfl, h1, h2, hl, hr⟩ := ha
    simp only [entries, mem_append, mem_cons] at hne
    have hv : v.start ≠ new.start := hne (q, v) (.inr (.inl rfl))
    rw [insertNode]
    split_ifs with hlt hgt
    · obtain ⟨hl', hcase⟩ := ihl hl fun e he => hne e (.inl he)
      rw [updateNode_node]
      by_cases hb : (insertNode p new l).getHeight ≤ r.getHeight + 1
      · rw [balanceInsert_of_balanced hb (by omega)]
        refine ⟨avl_mk.mpr ⟨hb, by omega, hl', hr⟩, ?_⟩
        simp only [getHeight_mk, getHeight_node]
        by_cases hsame : max (insertNode p new l).getHeight r.getHeight =
            max l.getHeight r.getHeight
        · exact .inl (by omega)
        · exact .inr ⟨by omega, .inr ⟨q, v, _, r, rfl, .inl ⟨hlt, by omega⟩⟩⟩
      obtain ⟨hgrow, hlean⟩ := hcase.resolve_left (by omega)
      have hlean := hlean.resolve_left (by omega)
      have hne := hlean.getBalance_ne
      rw [balanceInsert_eq (.inl ⟨by omega, hlean⟩)]
      obtain ⟨hA, hH⟩ := balanceDelete_left hl' hr (by omega)
      exact ⟨hA, .inl (by simp only [getHeight_node]; omega)⟩
    · obtain ⟨hr', hcase⟩ := ihr hr fun e he => hne e (.inr (.inr he))
      rw [updateNode_node]
      by_cases hb : (insertNode p new r).getHeight ≤ l.getHeight + 1
      · rw [balanceInsert_of_balanced (by omega) hb]
        refine ⟨avl_mk.mpr ⟨by omega, hb, hl, hr'⟩, ?_⟩
        simp only [getHeight_mk, getHeight_node]
        by_cases hsame : max l.getHeight (insertNode p new r).getHeight =
            max l.getHeight r.getHeight
        · exact .inl (by omega)
        · exact .inr ⟨by omega, .inr ⟨q, v, l, _, rfl, .inr ⟨hgt, by omega⟩⟩⟩
      obtain ⟨hgrow, hlean⟩ := hcase.resolve_left (by omega)
      have hlean := hlean.resolve_left (by omega)
      have hne := hlean.getBalance_ne
      rw [balanceInsert_eq (.inr ⟨by omega, hlean⟩)]
      obtain ⟨hA, hH⟩ := balanceDelete_right hl hr' (by omega)
      exact ⟨hA, .inl (by simp only [getHeight_node]; omega)⟩
    · omega

/-! ## Deletion -/

theorem balanceDelete_avl (hl : l.Avl) (hr : r.Avl) (h1 : l.getHeight ≤ r.getHeight + 2)
    (h2 : r.getHeight ≤ l.getHeight + 2) : (balanceDelete (mk p v l r)).Avl ∧
      max l.getHeight r.getHeight ≤ (balanceDelete (mk p v l r)).getHeight ∧
      (balanceDelete (mk p v l r)).getHeight ≤ 1 + max l.getHeight r.getHeight ∧
      (l.getHeight ≤ r.getHeight + 1 → r.getHeight ≤ l.getHeight + 1 →
        (balanceDelete (mk p v l r)).getHeight = 1 + max l.getHeight r.getHeight) := by
  rcases Nat.lt_or_ge (r.getHeight + 1) l.getHeight with hlt | hle
  · obtain ⟨hA, hH⟩ := balanceDelete_left hl hr (by omega)
    exact ⟨hA, by omega, by omega, fun _ _ => by omega⟩
  rcases Nat.lt_or_ge (l.getHeight + 1) r.getHeight with hlt | hle'
  · obtain ⟨hA, hH⟩ := balanceDelete_right hl hr (by omega)
    exact ⟨hA, by omega, by omega, fun _ _ => by omega⟩
  · rw [balanceDelete_of_balanced hle hle', getHeight_mk]
    exact ⟨avl_mk.mpr ⟨hle, hle', hl, hr⟩, by omega, by omega, fun _ _ => rfl⟩

/-- The tree of a node that keeps its balance is as it was. -/
theorem Avl.balanceDelete_eq (ha : t.Avl) : balanceDelete (updateNode t) = t := by
  cases t with
  | nil => rfl
  | node p v m h l r =>
    rw [ha.node_eq]
    exact balanceDelete_of_balanced ha.2.2.1 ha.2.2.2.1

theorem minValueNode_eq (h0 : t ≠ nil) :
    ∃ q w es, t.minValueNode = some w ∧ t.entries = (q, w) :: es := by
  induction t with
  | nil => exact absurd rfl h0
  | node p v m h l r ihl _ =>
    cases l with
    | nil => exact ⟨p, v, r.entries, rfl, rfl⟩
    | node q w m' h' a b =>
      obtain ⟨q', w', es, hmin, hes⟩ := ihl (by simp)
      exact ⟨q', w', es ++ (p, v) :: r.entries, hmin, by rw [entries, hes]; rfl⟩

theorem deleteNode_node (p : ℕ) (v : Region) (m h : ℕ) (l r : Tree) (s : ℕ) :
    (s < v.start ∧ deleteNode (node p v m h l r) s =
      (balanceDelete (mk p v (deleteNode l s).1 r), (deleteNode l s).2)) ∨
    (v.start < s ∧ deleteNode (node p v m h l r) s =
      (balanceDelete (mk p v l (deleteNode r s).1), (deleteNode r s).2)) ∨ (s = v.start ∧ l = nil ∧
      deleteNode (node p v m h l r) s = (balanceDelete (updateNode r), true)) ∨
    (s = v.start ∧ r = nil ∧
      deleteNode (node p v m h l r) s = (balanceDelete (updateNode l), true)) ∨
    (s = v.start ∧ l ≠ nil ∧ ∃ q w es, r.entries = (q, w) :: es ∧
      deleteNode (node p v m h l r) s =
        (balanceDelete (mk p w l (deleteNode r w.start).1), true)) := by
  rw [deleteNode.eq_def]
  dsimp only
  split_ifs with h1 h2
  · exact .inl ⟨h1, rfl⟩
  · exact .inr (.inl ⟨h2, rfl⟩)
  have hs : s = v.start := by omega
  refine .inr (.inr ?_)
  cases l with
  | nil => exact .inl ⟨hs, rfl, rfl⟩
  | node q u m' h' a b =>
    cases r with
    | nil => exact .inr (.inl ⟨hs, rfl, rfl⟩)
    | node q' u' m'' h'' a' b' =>
      obtain ⟨q, w, es, hmin, hes⟩ := minValueNode_eq (t := node q' u' m'' h'' a' b') (by simp)
      refine .inr (.inr ⟨hs, by simp, q, w, es, hes, ?_⟩)
      dsimp only
      rw [hmin]
      rfl

/-- **Deletion keeps the tree balanced**, and makes it lower by at most `1`. -/
theorem deleteNode_avl (ha : t.Avl) (s : ℕ) : (deleteNode t s).1.Avl ∧
    (deleteNode t s).1.getHeight ≤ t.getHeight ∧
    t.getHeight ≤ (deleteNode t s).1.getHeight + 1 := by
  induction t generalizing s with
  | nil => exact ⟨trivial, le_rfl, Nat.le_succ _⟩
  | node p v m h l r ihl ihr =>
    obtain ⟨rfl, rfl, h1, h2, hl, hr⟩ := ha
    simp only [getHeight_node]
    have hlow : ∀ w s, (balanceDelete (mk p w l (deleteNode r s).1)).Avl ∧
        (balanceDelete (mk p w l (deleteNode r s).1)).getHeight ≤
          1 + max l.getHeight r.getHeight ∧ 1 + max l.getHeight r.getHeight ≤
          (balanceDelete (mk p w l (deleteNode r s).1)).getHeight + 1 := by
      intro w s
      obtain ⟨hd, hd1, hd2⟩ := ihr hr s
      obtain ⟨hA, hA1, hA2, hA3⟩ := balanceDelete_avl hl hd (by omega) (by omega)
      exact ⟨hA, by omega, by omega⟩
    rcases deleteNode_node p v _ _ l r s with ⟨-, he⟩ | ⟨-, he⟩ | ⟨-, rfl, he⟩ | ⟨-, rfl, he⟩ |
      ⟨-, -, q, w, es, -, he⟩
    all_goals rw [he]
    · obtain ⟨hd, hd1, hd2⟩ := ihl hl s
      obtain ⟨hA, hA1, hA2, hA3⟩ := balanceDelete_avl hd hr (by omega) (by omega)
      exact ⟨hA, by dsimp only; omega, by dsimp only; omega⟩
    · exact hlow v s
    · rw [hr.balanceDelete_eq]
      simp only [getHeight_nil] at h1 h2 ⊢
      exact ⟨hr, by omega, by omega⟩
    · rw [hl.balanceDelete_eq]
      simp only [getHeight_nil] at h1 h2 ⊢
      exact ⟨hl, by omega, by omega⟩
    · exact hlow w w.start

/-! ## The nodes in order -/

/-- The starts go up. -/
def Ordered (es : List (ℕ × Region)) : Prop := es.Pairwise fun a b => a.2.start < b.2.start

/-- The regions have addresses, and come one after the other. -/
def Apart (es : List (ℕ × Region)) : Prop :=
  es.Pairwise (fun a b => a.2.stop ≤ b.2.start) ∧ ∀ e ∈ es, e.2.start < e.2.stop

theorem Apart.ordered {es : List (ℕ × Region)} (h : Apart es) : Ordered es :=
  h.1.imp_of_mem fun ha _ hab => Nat.lt_of_lt_of_le (h.2 _ ha) hab

theorem append_cons_eq {α : Type} {x y L R : List α} {a b : α} (h : x ++ a :: y = L ++ b :: R) :
    (∃ R', x = L ++ b :: R' ∧ R = R' ++ a :: y) ∨ (x = L ∧ a = b ∧ y = R) ∨
      ∃ L', y = L' ++ b :: R ∧ L = x ++ a :: L' := by
  rcases append_eq_append_iff.mp h with ⟨as, hL, hy⟩ | ⟨as, hx, hy⟩
  · cases as with
    | nil =>
      obtain ⟨rfl, rfl⟩ := cons.inj hy
      exact .inr (.inl ⟨by simpa using hL.symm, rfl, rfl⟩)
    | cons c as =>
      obtain ⟨rfl, rfl⟩ := cons.inj hy
      exact .inr (.inr ⟨as, rfl, hL⟩)
  cases as with
  | nil =>
    obtain ⟨rfl, rfl⟩ := cons.inj hy
    exact .inr (.inl ⟨by simpa using hx, rfl, rfl⟩)
  | cons c as =>
    obtain ⟨rfl, rfl⟩ := cons.inj hy
    exact .inl ⟨as, hx, rfl⟩

/-- **Insertion puts the region in its place.** -/
theorem entries_insertNode {L R : List (ℕ × Region)} (he : t.entries = L ++ R)
    (hL : ∀ e ∈ L, e.2.start < new.start) (hR : ∀ e ∈ R, new.start < e.2.start) :
    (insertNode p new t).entries = L ++ (p, new) :: R := by
  induction t generalizing L R with
  | nil =>
    obtain ⟨rfl, rfl⟩ := nil_eq_append_iff.mp he
    rfl
  | node q v m h l r ihl ihr =>
    rw [insertNode]
    rcases append_eq_append_iff.mp he with ⟨as, rfl, hr⟩ | ⟨as, hl, rfl⟩
    swap
    · have hlt : new.start < v.start := hR (q, v) (by simp)
      rw [if_pos hlt, updateNode_node, entries_balanceInsert, entries_mk,
        ihl hl hL fun e he => hR e (by simp [he])]
      simp
    cases as with
    | nil =>
      have hlt : new.start < v.start := hR (q, v) (by rw [nil_append] at hr; simp [← hr])
      rw [if_pos hlt, updateNode_node, entries_balanceInsert, entries_mk,
        ihl (L := l.entries) (R := []) (by simp) (by simpa using hL) (by simp)]
      simp [hr]
    | cons c as =>
      obtain ⟨rfl, hr'⟩ := cons.inj hr
      have hgt : v.start < new.start := hL (q, v) (by simp)
      rw [if_neg (by omega), if_pos hgt, updateNode_node, entries_balanceInsert, entries_mk,
        ihr hr' (fun e he => hL e (by simp [he])) hR]
      simp

/-- **Deletion takes the region out.**  The nodes before it stay, and the nodes after it too, but
if it has two children then the next region moves into its node. -/
theorem entries_deleteNode (ho : Ordered t.entries) {L R : List (ℕ × Region)}
    (he : t.entries = L ++ (p, v) :: R) : (deleteNode t v.start).2 = true ∧
      ((deleteNode t v.start).1.entries = L ++ R ∨
        ∃ q w R', R = (q, w) :: R' ∧ L ≠ [] ∧
          (deleteNode t v.start).1.entries = L ++ (p, w) :: R') := by
  induction t generalizing p v L R with
  | nil => simp [entries] at he
  | node q u m h l r ihl ihr =>
    have ho' : Ordered (l.entries ++ (q, u) :: r.entries) := ho
    obtain ⟨hol, hor, hlr⟩ := pairwise_append.mp ho'
    obtain ⟨hur, hor⟩ := pairwise_cons.mp hor
    rcases append_cons_eq he with ⟨R', hl, rfl⟩ | ⟨rfl, hqu, rfl⟩ | ⟨L', hr, rfl⟩
    · have hlt : v.start < u.start := hlr (p, v) (by simp [hl]) (q, u) (by simp)
      obtain ⟨hd, hcase⟩ := ihl hol hl
      rcases deleteNode_node q u m h l r v.start with ⟨-, hn⟩ | ⟨hn, -⟩ | ⟨hn, -⟩ | ⟨hn, -⟩ |
        ⟨hn, -⟩
      all_goals first | omega | skip
      rw [hn]
      refine ⟨hd, ?_⟩
      rcases hcase with hc | ⟨q', w, R'', rfl, hL, hc⟩
      · exact .inl (by simp [hc])
      · exact .inr ⟨q', w, _, rfl, hL, by simp [hc]⟩
    · cases hqu
      rcases deleteNode_node q u m h l r u.start with ⟨hn, -⟩ | ⟨hn, -⟩ | ⟨-, rfl, hn⟩ |
        ⟨-, rfl, hn⟩ | ⟨-, hl, q', w, es, hes, hn⟩
      · omega
      · omega
      · rw [hn]
        exact ⟨rfl, .inl (by simp [entries])⟩
      · rw [hn]
        exact ⟨rfl, .inl (by simp [entries])⟩
      rw [hn]
      refine ⟨rfl, .inr ⟨q', w, es, hes, fun e => hl ?_, ?_⟩⟩
      · cases l with
        | nil => rfl
        | node => simp [entries] at e
      · obtain ⟨-, hc | ⟨_, _, _, -, hne, -⟩⟩ := ihr (L := []) hor (by simpa using hes)
        · simp [hc]
        · exact absurd rfl hne
    · have hlt : u.start < v.start := hur (p, v) (by simp [hr])
      obtain ⟨hd, hcase⟩ := ihr hor hr
      rcases deleteNode_node q u m h l r v.start with ⟨hn, -⟩ | ⟨-, hn⟩ | ⟨hn, -⟩ | ⟨hn, -⟩ |
        ⟨hn, -⟩
      all_goals first | omega | skip
      rw [hn]
      refine ⟨hd, ?_⟩
      rcases hcase with hc | ⟨q', w, R'', rfl, hL, hc⟩
      · exact .inl (by simp [hc])
      · exact .inr ⟨q', w, _, rfl, by simp, by simp [hc]⟩

/-! ## Lookups -/

theorem find_eq (ha : Apart t.entries) (addr : ℕ) :
    t.find addr = t.entries.find? fun e => e.2.Has addr := by
  induction t with
  | nil => rfl
  | node p v m h l r ihl ihr =>
    obtain ⟨hp, hs⟩ := ha
    obtain ⟨hpl, hpr, hlr⟩ := pairwise_append.mp hp
    obtain ⟨hvr, hpr⟩ := pairwise_cons.mp hpr
    simp only [entries, mem_append, mem_cons] at hs
    rw [find, entries, find?_append, find?_cons]
    have hleft : v.start ≤ addr → (l.entries.find? fun e => e.2.Has addr) = none := by
      intro hle
      rw [find?_eq_none]
      intro e he hhas
      have hstop : e.2.stop ≤ v.start := hlr e he (p, v) (by simp)
      exact absurd (of_decide_eq_true hhas).2 (by omega)
    split_ifs with hhas hlt
    · rw [hleft hhas.1, decide_eq_true hhas]
      rfl
    · have hright : ((r.entries).find? fun e => e.2.Has addr) = none := by
        rw [find?_eq_none]
        intro e he hhas
        have hstop : v.stop ≤ e.2.start := hvr e he
        have hv : v.start < v.stop := hs (p, v) (.inr (.inl rfl))
        exact absurd (of_decide_eq_true hhas).1 (by omega)
      rw [decide_eq_false hhas, hright, Option.or_none]
      exact ihl ⟨hpl, fun e he => hs e (.inl he)⟩
    · rw [decide_eq_false hhas, hleft (by omega)]
      exact ihr ⟨hpr, fun e he => hs e (.inr (.inr he))⟩

theorem Avl.stop_le (ha : t.Avl) {e : ℕ × Region} (he : e ∈ t.entries) :
    e.2.stop ≤ t.getMaxEnd := by
  induction t with
  | nil => cases he
  | node p v m h l r ihl ihr =>
    obtain ⟨rfl, -, -, -, hl, hr⟩ := ha
    rw [getMaxEnd]
    simp only [entries, mem_append, mem_cons] at he
    rcases he with he | rfl | he
    · have := ihl hl he
      omega
    · dsimp only
      omega
    · have := ihr hr he
      omega

theorem findOverlap_eq (ha : t.Avl) (start stop : ℕ) :
    t.findOverlap start stop = t.entries.find? fun e => e.2.Meets start stop := by
  induction t with
  | nil => rfl
  | node p v m h l r ihl ihr =>
    have hstop := fun e he => ha.stop_le (e := e) he
    obtain ⟨rfl, -, -, -, hl, hr⟩ := ha
    rw [findOverlap, entries, find?_append, find?_cons]
    have hleft : (if l ≠ nil ∧ start < l.getMaxEnd then l.findOverlap start stop else none) =
        l.entries.find? fun e => e.2.Meets start stop := by
      split_ifs with hc
      · exact ihl hl
      symm
      rw [find?_eq_none]
      intro e he hm
      refine hc ⟨?_, Nat.lt_of_lt_of_le (of_decide_eq_true hm).1 (hl.stop_le he)⟩
      rintro rfl
      cases he
    rw [hleft]
    cases (l.entries.find? fun e => e.2.Meets start stop) with
    | some e => rfl
    | none =>
      rw [Option.none_or]
      split_ifs with hm hle
      · rw [decide_eq_true hm]
      · rw [decide_eq_false hm]
        symm
        rw [find?_eq_none]
        intro e he hm'
        have hlt := Nat.lt_of_lt_of_le (of_decide_eq_true hm').1 (hstop e (by simp [entries, he]))
        exact absurd hlt (Nat.not_lt.mpr hle)
      · rw [decide_eq_false hm]
        exact ihr hr

/-! ## Other changes -/

theorem entries_modify (f : Region → Region) (t : Tree) : (t.modify p f).entries =
    t.entries.map fun e => if e.1 = p then (e.1, f e.2) else e := by
  induction t with
  | nil => rfl
  | node q v m h l r ihl ihr =>
    simp only [modify, entries, ihl, ihr, map_append, map_cons]
    split_ifs <;> rfl

theorem modify_avl {f : Region → Region} (hf : ∀ v, (f v).stop = v.stop) (ha : t.Avl) :
    (t.modify p f).Avl ∧ (t.modify p f).getHeight = t.getHeight ∧
      (t.modify p f).getMaxEnd = t.getMaxEnd := by
  induction t with
  | nil => exact ⟨trivial, rfl, rfl⟩
  | node q v m h l r ihl ihr =>
    obtain ⟨rfl, rfl, h1, h2, hl, hr⟩ := ha
    obtain ⟨hal, hhl, hml⟩ := ihl hl
    obtain ⟨har, hhr, hmr⟩ := ihr hr
    refine ⟨⟨?_, ?_, by rw [hhl, hhr]; exact h1, by rw [hhl, hhr]; exact h2, hal, har⟩, rfl, rfl⟩
    · rw [hml, hmr]
      split_ifs
      · rw [hf]
      · rfl
    · rw [hhl, hhr]

end Tree

/-- The tree built from an array has the nodes of the array. -/
theorem entries_vmaBuildBalanced (es : List (ℕ × Region)) : (vmaBuildBalanced es).entries = es := by
  fun_induction vmaBuildBalanced es with
  | case1 es h =>
    rw [drop_eq_nil_iff] at h
    have : es.length = 0 := by omega
    rw [length_eq_zero_iff.mp this]
    rfl
  | case2 es p v rest h ihl ihr =>
    rw [entries_updateNode, entries, ihl, ihr, ← h, take_append_drop]

/-- The height of the tree built from `n` nodes. -/
def HeightOf (n x : ℕ) : Prop := n < 2 ^ x ∧ (n = 0 ∧ x = 0 ∨ 2 ^ x ≤ 2 * n)

/-- The halves of an array differ by at most one node, so their heights do. -/
theorem HeightOf.halves {n k x y : ℕ} (hn : n - n / 2 = k + 1) (hx : HeightOf (n / 2) x)
    (hy : HeightOf k y) : y ≤ x ∧ x ≤ y + 1 ∧ HeightOf n (x + 1) := by
  obtain ⟨hx1, hx2⟩ := hx
  obtain ⟨hy1, hy2⟩ := hy
  have hyx : y ≤ x := by
    by_contra hlt
    have := Nat.pow_le_pow_right (show 0 < 2 by decide) (show x + 1 ≤ y by omega)
    omega
  have hxy : x ≤ y + 1 := by
    by_contra hlt
    have := Nat.pow_lt_pow_right (show 1 < 2 by decide) (show y + 1 < x by omega)
    omega
  refine ⟨hyx, hxy, ?_, .inr ?_⟩
  · omega
  rcases hx2 with ⟨h0, rfl⟩ | hx2
  · omega
  · omega

/-- **The tree built from an array is balanced.** -/
theorem vmaBuildBalanced_avl (es : List (ℕ × Region)) : (vmaBuildBalanced es).Avl ∧
    HeightOf es.length (vmaBuildBalanced es).getHeight := by
  fun_induction vmaBuildBalanced es with
  | case1 es h =>
    rw [drop_eq_nil_iff] at h
    have h0 : es.length = 0 := by omega
    rw [h0]
    exact ⟨trivial, by decide, .inl ⟨rfl, rfl⟩⟩
  | case2 es p v rest h ihl ihr =>
    have hlen := congrArg length h
    simp only [length_drop] at hlen
    rw [length_take, Nat.min_eq_left (by omega)] at ihl
    obtain ⟨hyx, hxy, hheight⟩ := HeightOf.halves hlen ihl.2 ihr.2
    rw [updateNode_node, getHeight_mk, Nat.max_eq_left hyx, Nat.add_comm 1]
    exact ⟨avl_mk.mpr ⟨hxy, by omega, ihl.1, ihr.1⟩, hheight⟩

end AvoryOS.Vma
