import Mathlib.Data.Tree.Basic
import Mathlib.Data.List.Perm.Basic
import Mathlib.Data.List.Nodup
import Mathlib.Logic.Function.Basic
import Mathlib.Tactic.Common

/-!
# Binary trees linked through a memory

A binary tree is linked through a memory if every node has the addresses of its children and of
its parent; `0` is the null address.  A tree is looked at from one of its places: a subtree, and
the way from it up to the root.  Statements about a place are the same for both sides, since a
node is put together from the child on a given side and the child on the other side.

## Main definitions

* `Node`, `cells`, `Holds` — the memory of a tree.
* `Frame`, `plug` — the way from a place to the root, and the whole tree.
* `At mem root k t` — the tree with `t` at the place `k` is linked through `mem`.
* `At.down`, `At.up` — moving the place.
* `Holds.reparent`, `Holds.rehole` — the memory of a subtree with another parent, and of a way
  with another subtree.
-/

namespace LinkedTree

open List

inductive Side
  | left
  | right
  deriving DecidableEq

def Side.other : Side → Side
  | .left => .right
  | .right => .left

@[simp] theorem Side.other_other (s : Side) : s.other.other = s := by cases s <;> rfl

theorem Side.eq_or_eq_other (s s' : Side) : s' = s ∨ s' = s.other := by
  cases s <;> cases s' <;> simp [other]

/-- A node in memory, with data of its own. -/
structure Node (γ : Type) where
  parent : ℕ
  left : ℕ
  right : ℕ
  data : γ
  deriving DecidableEq

namespace Node
variable {γ : Type}

def child (n : Node γ) : Side → ℕ
  | .left => n.left
  | .right => n.right

def setChild (n : Node γ) : Side → ℕ → Node γ
  | .left, p => { n with left := p }
  | .right, p => { n with right := p }

def setParent (n : Node γ) (p : ℕ) : Node γ := { n with parent := p }

/-- A node from its child on a side and its child on the other side. -/
def of (s : Side) (parent near far : ℕ) (d : γ) : Node γ :=
  match s with
  | .left => ⟨parent, near, far, d⟩
  | .right => ⟨parent, far, near, d⟩

variable {s : Side} {p near far v : ℕ} {d : γ}

@[simp] theorem parent_of : (of s p near far d).parent = p := by cases s <;> rfl

@[simp] theorem data_of : (of s p near far d).data = d := by cases s <;> rfl

@[simp] theorem child_of : (of s p near far d).child s = near := by cases s <;> rfl

@[simp] theorem child_other_of : (of s p near far d).child s.other = far := by cases s <;> rfl

@[simp] theorem setParent_of : (of s p near far d).setParent v = of s v near far d := by
  cases s <;> rfl

@[simp] theorem setChild_of : (of s p near far d).setChild s v = of s p v far d := by
  cases s <;> rfl

@[simp] theorem setChild_other_of : (of s p near far d).setChild s.other v = of s p near v d := by
  cases s <;> rfl

end Node

variable {γ : Type} {s : Side} {a b : ℕ × γ} {t t' near far : BinaryTree (ℕ × γ)}
  {mem mem' : ℕ → Node γ} {p q z root : ℕ}

/-! ## Trees -/

def top : BinaryTree (ℕ × γ) → ℕ
  | .nil => 0
  | .node a _ _ => a.1

def inorder : BinaryTree (ℕ × γ) → List ℕ
  | .nil => []
  | .node a l r => inorder l ++ a.1 :: inorder r

/-- A node from its subtree on a side and its subtree on the other side. -/
def join (s : Side) (a : ℕ × γ) (near far : BinaryTree (ℕ × γ)) : BinaryTree (ℕ × γ) :=
  match s with
  | .left => .node a near far
  | .right => .node a far near

theorem join_other : join s.other a near far = join s a far near := by cases s <;> rfl

@[simp] theorem top_join : top (join s a near far) = a.1 := by cases s <;> rfl

theorem exists_join (h : t ≠ .nil) (s : Side) : ∃ a near far, t = join s a near far := by
  cases t with
  | nil => exact absurd rfl h
  | node a l r =>
    cases s with
    | left => exact ⟨a, l, r, rfl⟩
    | right => exact ⟨a, r, l, rfl⟩

theorem node_eq_join (s : Side) (a : ℕ × γ) (t t' : BinaryTree (ℕ × γ)) :
    ∃ near far, .node a t t' = join s a near far := by
  cases s with
  | left => exact ⟨t, t', rfl⟩
  | right => exact ⟨t', t, rfl⟩

theorem mem_top (h : t ≠ .nil) : top t ∈ inorder t := by
  cases t with
  | nil => exact absurd rfl h
  | node a l r => exact mem_append_right _ mem_cons_self

theorem top_eq_or_mem (t : BinaryTree (ℕ × γ)) : top t = 0 ∨ top t ∈ inorder t := by
  by_cases h : t = .nil
  · exact .inl (h ▸ rfl)
  · exact .inr (mem_top h)

theorem ne_top (hz : z ≠ 0) (hm : z ∉ inorder t) : z ≠ top t := fun e =>
  (top_eq_or_mem t).elim (fun h => hz (e.trans h)) fun h => hm (e ▸ h)

theorem inorder_join_perm :
    (inorder (join s a near far)).Perm (a.1 :: (inorder near ++ inorder far)) := by
  cases s with
  | left => exact perm_middle
  | right => exact perm_middle.trans (perm_append_comm.cons _)

@[simp] theorem mem_inorder_join :
    z ∈ inorder (join s a near far) ↔ z = a.1 ∨ z ∈ inorder near ∨ z ∈ inorder far := by
  rw [inorder_join_perm.mem_iff, mem_cons, mem_append]

/-- The order does not change if the far child of a node becomes its parent. -/
theorem inorder_rotate {c : BinaryTree (ℕ × γ)} :
    inorder (join s a near (join s b far c)) = inorder (join s b (join s a near far) c) := by
  cases s <;> simp [join, inorder]

/-! ## The memory of a tree -/

/-- The nodes of a tree whose root has the given parent. -/
def cells : BinaryTree (ℕ × γ) → ℕ → List (ℕ × Node γ)
  | .nil, _ => []
  | .node a l r, p => (a.1, ⟨p, top l, top r, a.2⟩) :: (cells l a.1 ++ cells r a.1)

/-- The memory has the nodes of the list. -/
def Holds (mem : ℕ → Node γ) (l : List (ℕ × Node γ)) : Prop := ∀ e ∈ l, mem e.1 = e.2

variable {e : ℕ × Node γ}

theorem fst_mem_of_mem_cells (h : e ∈ cells t p) : e.1 ∈ inorder t := by
  induction t generalizing p with
  | nil => cases h
  | node a l r ihl ihr =>
    simp only [cells, mem_cons, mem_append] at h
    simp only [inorder, mem_append, mem_cons]
    rcases h with rfl | h | h
    · exact .inr (.inl rfl)
    · exact .inl (ihl h)
    · exact .inr (.inr (ihr h))

theorem holds_join : Holds mem (cells (join s a near far) p) ↔
    mem a.1 = Node.of s p (top near) (top far) a.2 ∧ Holds mem (cells near a.1) ∧
      Holds mem (cells far a.1) := by
  cases s with
  | left => simp [Holds, join, cells, Node.of, or_imp, forall_and]
  | right =>
    simp only [Holds, join, cells, mem_cons, mem_append, or_imp, forall_and, forall_eq]
    tauto

theorem Holds.congr (h : Holds mem (cells t p)) (hm : ∀ z ∈ inorder t, mem' z = mem z) :
    Holds mem' (cells t p) := fun e he =>
  (hm e.1 (fst_mem_of_mem_cells he)).trans (h e he)

/-- **The root gets another parent.** -/
theorem Holds.reparent (h : Holds mem (cells t p)) (hn : (inorder t).Nodup)
    (hm : ∀ z ∈ inorder t, z ≠ top t → mem' z = mem z)
    (ht : t ≠ .nil → mem' (top t) = (mem (top t)).setParent q) : Holds mem' (cells t q) := by
  cases t with
  | nil => exact fun e he => (by cases he)
  | node a l r =>
    have hroot := ht (by simp)
    have hcells : Holds mem (cells (join .left a l r) p) := h
    obtain ⟨h0, hl, hr⟩ := holds_join.mp hcells
    have hn' : (a.1 :: (inorder l ++ inorder r)).Nodup :=
      (inorder_join_perm (s := .left)).nodup_iff.mp hn
    obtain ⟨ha, -⟩ := nodup_cons.mp hn'
    rw [mem_append] at ha
    show Holds mem' (cells (join .left a l r) q)
    refine holds_join.mpr ⟨?_, hl.congr fun z hz => ?_, hr.congr fun z hz => ?_⟩
    · rw [show a.1 = top (.node a l r) from rfl, hroot]
      show (mem a.1).setParent q = _
      rw [h0]
      rfl
    · exact hm z (mem_append_left _ hz) fun e => ha (.inl (by rwa [← show z = a.1 from e]))
    · exact hm z (mem_append_right _ (mem_cons_of_mem _ hz)) fun e =>
        ha (.inr (by rwa [← show z = a.1 from e]))

/-! ## Places -/

/-- One step of the way up: the node above, the side it is above on, and its other subtree. -/
structure Frame (γ : Type) where
  side : Side
  node : ℕ × γ
  sib : BinaryTree (ℕ × γ)

variable {f : Frame γ} {k : List (Frame γ)}

def Frame.fill (f : Frame γ) (t : BinaryTree (ℕ × γ)) : BinaryTree (ℕ × γ) :=
  join f.side f.node t f.sib

def plug : List (Frame γ) → BinaryTree (ℕ × γ) → BinaryTree (ℕ × γ)
  | [], t => t
  | f :: k, t => plug k (f.fill t)

def up : List (Frame γ) → ℕ
  | [] => 0
  | f :: _ => f.node.1

/-- The address of the root, with the address of the subtree. -/
def rootOf : List (Frame γ) → ℕ → ℕ
  | [], p => p
  | f :: k, _ => rootOf k f.node.1

def addrs : List (Frame γ) → List ℕ
  | [] => []
  | f :: k => f.node.1 :: (inorder f.sib ++ addrs k)

theorem up_eq_or_mem (k : List (Frame γ)) : up k = 0 ∨ up k ∈ addrs k := by
  cases k with
  | nil => exact .inl rfl
  | cons f k => exact .inr mem_cons_self

theorem ne_up (hz : z ≠ 0) (hm : z ∉ addrs k) : z ≠ up k := fun e =>
  (up_eq_or_mem k).elim (fun h => hz (e.trans h)) fun h => hm (e ▸ h)

/-- The addresses of the whole tree, from the node at a place. -/
theorem inorder_join_addrs : (inorder (join s a near far) ++ addrs k).Perm
    (a.1 :: (inorder near ++ (inorder far ++ addrs k))) := by
  refine (inorder_join_perm.append_right _).trans ?_
  rw [cons_append, append_assoc]

theorem rootOf_mem (f : Frame γ) (k : List (Frame γ)) (p : ℕ) :
    rootOf (f :: k) p ∈ addrs (f :: k) := by
  induction k generalizing f p with
  | nil => exact mem_cons_self
  | cons g k ih => exact mem_cons_of_mem _ (mem_append_right _ (ih g f.node.1))

/-- The nodes outside of the subtree, with the address of the subtree. -/
def ctxCells : List (Frame γ) → ℕ → List (ℕ × Node γ)
  | [], _ => []
  | f :: k, p => (f.node.1, Node.of f.side (up k) p (top f.sib) f.node.2) ::
      (cells f.sib f.node.1 ++ ctxCells k f.node.1)

/-- The addresses before the subtree in order. -/
def before : List (Frame γ) → List ℕ
  | [] => []
  | ⟨.left, _, _⟩ :: k => before k
  | ⟨.right, a, sib⟩ :: k => before k ++ inorder sib ++ [a.1]

def after : List (Frame γ) → List ℕ
  | [] => []
  | ⟨.left, a, sib⟩ :: k => a.1 :: inorder sib ++ after k
  | ⟨.right, _, _⟩ :: k => after k

theorem before_eq_nil (h : ∀ f ∈ k, f.side = .left) : before k = [] := by
  induction k with
  | nil => rfl
  | cons f k ih =>
    obtain ⟨s, a, sib⟩ := f
    obtain rfl : s = .left := h _ mem_cons_self
    exact ih fun f hf => h f (mem_cons_of_mem _ hf)

theorem inorder_plug (k : List (Frame γ)) (t : BinaryTree (ℕ × γ)) :
    inorder (plug k t) = before k ++ inorder t ++ after k := by
  induction k generalizing t with
  | nil => simp [plug, before, after]
  | cons f k ih =>
    obtain ⟨s, a, sib⟩ := f
    rw [plug, ih]
    cases s <;> simp [Frame.fill, join, inorder, before, after]

theorem inorder_plug_congr (h : inorder t = inorder t') :
    inorder (plug k t) = inorder (plug k t') := by
  rw [inorder_plug, inorder_plug, h]

theorem addrs_perm (k : List (Frame γ)) : (addrs k).Perm (before k ++ after k) := by
  induction k with
  | nil => exact Perm.refl _
  | cons f k ih =>
    obtain ⟨s, a, sib⟩ := f
    refine perm_iff_count.mpr fun z => ?_
    have hcount := perm_iff_count.mp ih z
    rw [count_append] at hcount
    cases s <;> simp only [addrs, before, after, count_cons, count_append, count_nil] <;> omega

variable {k' : List (Frame γ)}

theorem addrs_append : addrs (k ++ k') = addrs k ++ addrs k' := by
  induction k with
  | nil => rfl
  | cons f k ih => simp [addrs, ih]

theorem mem_addrs_of_mem_sib (hf : f ∈ k) (hz : z ∈ inorder f.sib) : z ∈ addrs k := by
  induction k with
  | nil => cases hf
  | cons g k ih =>
    simp only [addrs, mem_cons, mem_append]
    rcases mem_cons.mp hf with rfl | hf
    · exact .inr (.inl hz)
    · exact .inr (.inr (ih hf))

theorem mem_inorder_plug : z ∈ inorder (plug k t) ↔ z ∈ inorder t ∨ z ∈ addrs k := by
  rw [inorder_plug, (addrs_perm k).mem_iff]
  simp only [mem_append]
  tauto

theorem length_inorder_plug :
    (inorder (plug k t)).length = (inorder t).length + (addrs k).length := by
  rw [inorder_plug, (addrs_perm k).length_eq]
  simp only [length_append]
  omega

theorem length_le_addrs (k : List (Frame γ)) : k.length ≤ (addrs k).length := by
  induction k with
  | nil => exact Nat.le_refl _
  | cons f k ih =>
    simp only [addrs, length_cons, length_append]
    omega

/-- The memory has the tree with `t` at the place `k`. -/
structure At (mem : ℕ → Node γ) (root : ℕ) (k : List (Frame γ)) (t : BinaryTree (ℕ × γ)) :
    Prop where
  tree : Holds mem (cells t (up k))
  ctx : Holds mem (ctxCells k (top t))
  root_eq : root = rootOf k (top t)
  nodup : (inorder t ++ addrs k).Nodup
  nonzero : 0 ∉ inorder t ++ addrs k

theorem fill_addrs_perm : (inorder (f.fill t) ++ addrs k).Perm (inorder t ++ addrs (f :: k)) :=
  inorder_join_addrs.trans perm_middle.symm

theorem At.up (h : At mem root (f :: k) t) : At mem root k (f.fill t) := by
  obtain ⟨s, a, sib⟩ := f
  have hctx : Holds mem (ctxCells k a.1) ∧ Holds mem (cells sib a.1) ∧
      mem a.1 = Node.of s (up k) (top t) (top sib) a.2 := by
    refine ⟨fun e he => h.ctx e ?_, fun e he => h.ctx e ?_, h.ctx _ mem_cons_self⟩
    · exact mem_cons_of_mem _ (mem_append_right _ he)
    · exact mem_cons_of_mem _ (mem_append_left _ he)
  refine ⟨holds_join.mpr ⟨hctx.2.2, h.tree, hctx.2.1⟩, ?_, ?_,
    fill_addrs_perm.nodup_iff.mpr h.nodup, fun h0 => h.nonzero (fill_addrs_perm.mem_iff.mp h0)⟩
  · rw [Frame.fill, top_join]
    exact hctx.1
  · rw [Frame.fill, top_join]
    exact h.root_eq

theorem At.down (h : At mem root k (f.fill t)) : At mem root (f :: k) t := by
  obtain ⟨h0, ht, hs⟩ := holds_join.mp h.tree
  have hctx := h.ctx
  have hroot := h.root_eq
  rw [Frame.fill, top_join] at hctx hroot
  refine ⟨ht, fun e he => ?_, hroot, fill_addrs_perm.nodup_iff.mp h.nodup,
    fun h0 => h.nonzero (fill_addrs_perm.mem_iff.mpr h0)⟩
  rcases mem_cons.mp he with rfl | he
  · exact h0
  rcases mem_append.mp he with he | he
  · exact hs e he
  · exact hctx e he

theorem At.rootOf_eq (h : At mem root k t) (p : ℕ) :
    (if LinkedTree.up k = 0 then p else root) = rootOf k p := by
  cases k with
  | nil => rfl
  | cons f k =>
    have h0 : f.node.1 ≠ 0 := fun e => h.nonzero (mem_append_right _ (e ▸ mem_cons_self))
    exact (if_neg h0).trans h.root_eq

theorem At.top_ne_zero (h : At mem root k t) (ht : t ≠ .nil) : top t ≠ 0 := fun e =>
  h.nonzero (mem_append_left _ (e ▸ mem_top ht))

theorem At.mem_ne_top (h : At mem root k t) (hz : z ∈ addrs k) : z ≠ top t :=
  ne_top (fun e => h.nonzero (mem_append_right _ (e ▸ hz))) fun hm =>
    (nodup_append.mp h.nodup).2.2 z hm z hz rfl

theorem plug_append : plug (k ++ k') t = plug k' (plug k t) := by
  induction k generalizing t with
  | nil => rfl
  | cons f k ih => exact ih

theorem at_append : At mem root (k ++ k') t ↔ At mem root k' (plug k t) := by
  induction k generalizing t with
  | nil => exact Iff.rfl
  | cons f k ih => exact Iff.trans ⟨At.up, At.down⟩ ih

theorem at_plug : At mem root [] (plug k t) ↔ At mem root k t := by
  rw [← at_append, append_nil]

theorem exists_plug (h : z ∈ inorder t) :
    ∃ k d l r, t = plug k (.node (z, d) l r : BinaryTree (ℕ × γ)) := by
  induction t with
  | nil => cases h
  | node a l r ihl ihr =>
    -- the place in a subtree, with one more step above it
    have hstep : ∀ (g : Frame γ) (t : BinaryTree (ℕ × γ)),
        (∃ k d l r, t = plug k (.node (z, d) l r : BinaryTree (ℕ × γ))) →
        ∃ k d l r, g.fill t = plug k (.node (z, d) l r : BinaryTree (ℕ × γ)) := by
      rintro g t ⟨k, d, l, r, rfl⟩
      exact ⟨k ++ [g], d, l, r, by rw [plug_append]; rfl⟩
    simp only [inorder, mem_append, mem_cons] at h
    rcases h with h | rfl | h
    · exact hstep ⟨.left, a, r⟩ l (ihl h)
    · exact ⟨[], a.2, l, r, rfl⟩
    · exact hstep ⟨.right, a, l⟩ r (ihr h)

theorem fst_mem_of_mem_ctxCells (h : e ∈ ctxCells k p) : e.1 ∈ addrs k := by
  induction k generalizing p with
  | nil => cases h
  | cons f k ih =>
    simp only [ctxCells, mem_cons, mem_append] at h
    simp only [addrs, mem_cons, mem_append]
    rcases h with rfl | h | h
    · exact .inl rfl
    · exact .inr (.inl (fst_mem_of_mem_cells h))
    · exact .inr (.inr (ih h))

theorem Holds.ctx_congr (h : Holds mem (ctxCells k p)) (hm : ∀ z ∈ addrs k, mem' z = mem z) :
    Holds mem' (ctxCells k p) := fun e he =>
  (hm e.1 (fst_mem_of_mem_ctxCells he)).trans (h e he)

/-- **The node above gets another child.** -/
theorem Holds.rehole (h : Holds mem (ctxCells k p)) (hn : (addrs k).Nodup)
    (hm : ∀ z ∈ addrs k, z ≠ LinkedTree.up k → mem' z = mem z)
    (hk : ∀ f k', k = f :: k' → mem' f.node.1 = (mem f.node.1).setChild f.side q) :
    Holds mem' (ctxCells k q) := by
  cases k with
  | nil => exact fun e he => (by cases he)
  | cons f k =>
    obtain ⟨hf, -⟩ := nodup_cons.mp hn
    rw [mem_append] at hf
    have hsame : ∀ z ∈ inorder f.sib ++ addrs k, mem' z = mem z := fun z hz =>
      hm z (mem_cons_of_mem _ hz) fun e =>
        hf (mem_append.mp (by rwa [← show z = f.node.1 from e]))
    intro e he
    rcases mem_cons.mp he with rfl | he
    · rw [hk f k rfl, h _ mem_cons_self, Node.setChild_of]
    rw [← h e (mem_cons_of_mem _ he)]
    refine hsame _ ?_
    rcases mem_append.mp he with he | he
    · exact mem_append_left _ (fst_mem_of_mem_cells he)
    · exact mem_append_right _ (fst_mem_of_mem_ctxCells he)

/-- **The only child of a node takes its place.** -/
theorem At.splice (hat : At mem root k (join s a t .nil))
    (ht : t ≠ .nil → mem' (top t) = (mem (top t)).setParent (LinkedTree.up k))
    (hk : ∀ f k', k = f :: k' → mem' f.node.1 = (mem f.node.1).setChild f.side (top t))
    (hsame : ∀ z ∈ inorder t ++ addrs k, z ≠ top t → z ≠ LinkedTree.up k → mem' z = mem z) :
    At mem' (rootOf k (top t)) k t := by
  have hperm : (inorder (join s a t .nil) ++ addrs k).Perm (a.1 :: (inorder t ++ addrs k)) :=
    inorder_join_addrs
  obtain ⟨-, hn⟩ := nodup_cons.mp (hperm.nodup_iff.mp hat.nodup)
  have h0 : 0 ∉ inorder t ++ addrs k := fun h =>
    hat.nonzero (hperm.mem_iff.mpr (mem_cons_of_mem _ h))
  obtain ⟨hnt, hnk, hdisj⟩ := nodup_append.mp hn
  obtain ⟨-, htree, -⟩ := holds_join.mp hat.tree
  refine ⟨htree.reparent hnt (fun z hz hne => ?_) ht, hat.ctx.rehole hnk (fun z hz hne => ?_) hk,
    rfl, hn, h0⟩
  · have hmem := mem_append_left (addrs k) hz
    exact hsame z hmem hne (ne_up (ne_of_mem_of_not_mem hmem h0) fun hm => hdisj z hz z hm rfl)
  · have hmem := mem_append_right (inorder t) hz
    exact hsame z hmem (ne_top (ne_of_mem_of_not_mem hmem h0) fun hm => hdisj z hm z hz rfl) hne

/-- **A new node takes the place of another.** -/
theorem At.replace (hat : At mem root k (join s a near far)) (hb0 : b.1 ≠ 0)
    (hb : b.1 ∉ inorder near ++ (inorder far ++ addrs k))
    (hself : mem' b.1 = .of s (LinkedTree.up k) (top near) (top far) b.2)
    (hnear : near ≠ .nil → mem' (top near) = (mem (top near)).setParent b.1)
    (hfar : far ≠ .nil → mem' (top far) = (mem (top far)).setParent b.1)
    (hk : ∀ f k', k = f :: k' → mem' f.node.1 = (mem f.node.1).setChild f.side b.1)
    (hsame : ∀ z ∈ inorder near ++ (inorder far ++ addrs k), z ≠ top near → z ≠ top far →
      z ≠ LinkedTree.up k → mem' z = mem z) : At mem' (rootOf k b.1) k (join s b near far) := by
  obtain ⟨-, hn⟩ := nodup_cons.mp (inorder_join_addrs.nodup_iff.mp hat.nodup)
  have h0 : 0 ∉ inorder near ++ (inorder far ++ addrs k) := fun h =>
    hat.nonzero (inorder_join_addrs.mem_iff.mpr (mem_cons_of_mem _ h))
  obtain ⟨hnn, hnfk, hdn⟩ := nodup_append.mp hn
  obtain ⟨hnf, hnk, hdf⟩ := nodup_append.mp hnfk
  simp only [mem_append, not_or] at h0 hdn
  obtain ⟨-, htn, htf⟩ := holds_join.mp hat.tree
  refine ⟨holds_join.mpr ⟨hself, htn.reparent hnn (fun z hz h => ?_) hnear,
    htf.reparent hnf (fun z hz h => ?_) hfar⟩, ?_, ?_, ?_, ?_⟩
  · have hz0 : z ≠ 0 := ne_of_mem_of_not_mem hz h0.1
    exact hsame z (mem_append_left _ hz) h (ne_top hz0 fun hm => hdn z hz z (.inl hm) rfl)
      (ne_up hz0 fun hm => hdn z hz z (.inr hm) rfl)
  · have hz0 : z ≠ 0 := ne_of_mem_of_not_mem hz h0.2.1
    exact hsame z (mem_append_right _ (mem_append_left _ hz))
      (ne_top hz0 fun hm => hdn z hm z (.inl hz) rfl) h (ne_up hz0 fun hm => hdf z hz z hm rfl)
  · have hctx := hat.ctx
    rw [top_join] at hctx ⊢
    refine hctx.rehole hnk (fun z hz h => ?_) hk
    have hz0 : z ≠ 0 := ne_of_mem_of_not_mem hz h0.2.2
    exact hsame z (mem_append_right _ (mem_append_right _ hz))
      (ne_top hz0 fun hm => hdn z hm z (.inr hz) rfl) (ne_top hz0 fun hm => hdf z hm z hz rfl) h
  · rw [top_join]
  · exact inorder_join_addrs.nodup_iff.mpr (nodup_cons.mpr ⟨hb, hn⟩)
  rw [inorder_join_addrs.mem_iff, mem_cons, mem_append, mem_append]
  rintro (h | h)
  · exact hb0 h.symm
  · exact h.elim h0.1 fun h => h.elim h0.2.1 h0.2.2

/-! ## Directions -/

/-- The addresses of a tree in the direction of a side. -/
def toward (s : Side) (t : BinaryTree (ℕ × γ)) : List ℕ :=
  match s with
  | .right => inorder t
  | .left => (inorder t).reverse

/-- The addresses after a place in the direction of a side. -/
def ahead (s : Side) (k : List (Frame γ)) : List ℕ :=
  match s with
  | .right => after k
  | .left => (before k).reverse

theorem toward_join : toward s (join s a near far) = toward s far ++ a.1 :: toward s near := by
  cases s <;> simp [toward, join, inorder]

variable {sib : BinaryTree (ℕ × γ)}

theorem ahead_same : ahead s (⟨s, a, sib⟩ :: k) = ahead s k := by
  cases s <;> rfl

theorem ahead_other : ahead s (⟨s.other, a, sib⟩ :: k) = a.1 :: (toward s sib ++ ahead s k) := by
  cases s with
  | left => simp [Side.other, ahead, before, toward]
  | right => simp [Side.other, ahead, after, toward]

theorem toward_plug (h : ∀ f ∈ k, f.side = s.other) :
    toward s (plug k t) = toward s t ++ ahead s k := by
  induction k generalizing t with
  | nil => cases s <;> simp [plug, ahead, before, after]
  | cons f k ih =>
    obtain ⟨s', a, sib⟩ := f
    obtain rfl : s' = s.other := h _ mem_cons_self
    rw [plug, ih fun f hf => h f (mem_cons_of_mem _ hf), Frame.fill, join_other,
      toward_join, ahead_other]
    simp

theorem headD_append {l l' : List ℕ} (h : l ≠ []) : (l ++ l').headD p = l.headD p := by
  obtain ⟨x, l, rfl⟩ := exists_cons_of_ne_nil h
  rfl

theorem toward_ne_nil (ht : t ≠ .nil) : toward s t ≠ [] := by
  have hne : inorder t ≠ [] := ne_nil_of_mem (mem_top ht)
  cases s with
  | left => exact fun e => hne (reverse_eq_nil_iff.mp e)
  | right => exact hne

/-! ## Children before parents -/

def postorder : BinaryTree (ℕ × γ) → List ℕ
  | .nil => []
  | .node a l r => postorder l ++ postorder r ++ [a.1]

/-- The addresses before a place, children before parents. -/
def postBefore : List (Frame γ) → List ℕ
  | [] => []
  | ⟨.left, _, _⟩ :: k => postBefore k
  | ⟨.right, _, sib⟩ :: k => postBefore k ++ postorder sib

/-- The addresses after a place, children before parents. -/
def postAfter : List (Frame γ) → List ℕ
  | [] => []
  | ⟨.left, a, sib⟩ :: k => postorder sib ++ a.1 :: postAfter k
  | ⟨.right, a, _⟩ :: k => a.1 :: postAfter k

theorem postorder_plug : postorder (plug k t) = postBefore k ++ postorder t ++ postAfter k := by
  induction k generalizing t with
  | nil => simp [plug, postBefore, postAfter]
  | cons f k ih =>
    obtain ⟨s, a, sib⟩ := f
    rw [plug, ih]
    cases s <;> simp [Frame.fill, join, postorder, postBefore, postAfter]

theorem postorder_perm (t : BinaryTree (ℕ × γ)) : (postorder t).Perm (inorder t) := by
  induction t with
  | nil => exact Perm.refl _
  | node a l r ihl ihr =>
    refine Perm.trans ?_ perm_middle.symm
    exact (perm_append_singleton _ _).trans ((ihl.append ihr).cons _)

theorem postorder_ne_nil (ht : t ≠ .nil) : postorder t ≠ [] :=
  ne_nil_of_mem ((postorder_perm t).mem_iff.mpr (mem_top ht))

end LinkedTree
