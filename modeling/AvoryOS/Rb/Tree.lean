import AvoryOS.Lib.RedBlack
import AvoryOS.Lib.Repeat

/-!
# The red-black tree

The nodes are linked through the memory, and each has the address of its parent and a colour in
one word.  A tree may be augmented: a callback computes a value of a node from the node and the
values of its children, and every change of the tree calls it where it changes links.

The code has each operation twice, for the left and for the right side.  Here the side is an
argument.  Loops have a bound on the number of their passes, and no result if it is too small.

## Main definitions

* `Heap` — the memory of the nodes, the root, and the values.
* `rbLinkNode`, `rbInsertAugmented`, `rbEraseAugmented` — the changes.
* `rbFirst`, `rbLast`, `rbNext`, `rbPrev` — the order.
* `rbFirstPostorder`, `rbNextPostorder` — children before parents.
-/

namespace AvoryOS.Rb

open LinkedTree RedBlack

/-- The tree, with a value for each node. -/
structure Heap (β : Type) where
  node : ℕ → Node Color
  root : ℕ
  aug : ℕ → β

/-- `rb_augment_cb`: the value of a node from the values of its children, or no callback. -/
abbrev Callback (β : Type) := Option (ℕ → Option β → Option β → β)

variable {β : Type}

namespace Heap

def update (h : Heap β) (x : ℕ) (n : Node Color) : Heap β :=
  { h with node := Function.update h.node x n }

def setParent (h : Heap β) (x p : ℕ) : Heap β := h.update x ((h.node x).setParent p)

def setChild (h : Heap β) (x : ℕ) (s : Side) (p : ℕ) : Heap β :=
  h.update x ((h.node x).setChild s p)

def setColor (h : Heap β) (x : ℕ) (c : Color) : Heap β := h.update x { h.node x with data := c }

def parent (h : Heap β) (x : ℕ) : ℕ := (h.node x).parent

def child (h : Heap β) (x : ℕ) (s : Side) : ℕ := (h.node x).child s

def color (h : Heap β) (x : ℕ) : Color := (h.node x).data

/-- A null pointer counts as black. -/
def isBlack (h : Heap β) (x : ℕ) : Bool := x = 0 || h.color x = .black

def value (h : Heap β) (x : ℕ) : Option β := if x = 0 then none else some (h.aug x)

def augment (h : Heap β) (cb : Callback β) (x : ℕ) : Heap β :=
  match cb with
  | none => h
  | some f =>
    { h with
      aug := Function.update h.aug x
        (f x (h.value (h.child x .left)) (h.value (h.child x .right))) }

/-- The node above `x` gets `y` in its place, or `y` becomes the root.  The side is the one that is
compared first. -/
def relink (h : Heap β) (s : Side) (parent x y : ℕ) : Heap β :=
  if parent ≠ 0 then
    if h.child parent s = x then h.setChild parent s y else h.setChild parent s.other y
  else { h with root := y }

end Heap

/-- `__rb_rotate_left` and `__rb_rotate_right`: the node goes down on the side. -/
def rotate (cb : Callback β) (s : Side) (x : ℕ) (h : Heap β) : Heap β :=
  let y := h.child x s.other
  let parent := h.parent x
  let h := h.setChild x s.other (h.child y s)
  let h := if h.child y s ≠ 0 then h.setParent (h.child y s) x else h
  let h := h.setChild y s x
  let h := h.setParent y parent
  let h := h.relink s parent x y
  let h := h.setParent x y
  (h.augment cb x).augment cb y

def rbRotateLeft (cb : Callback β) (x : ℕ) (h : Heap β) : Heap β := rotate cb .left x h

def rbRotateRight (cb : Callback β) (x : ℕ) (h : Heap β) : Heap β := rotate cb .right x h

/-- A pass of the loop of `rb_augment_propagate`. -/
def propagateStep (cb : Callback β) (s : Heap β × ℕ) : (Heap β × ℕ) ⊕ Heap β :=
  if s.2 = 0 then .inr s.1
  else
    let h := s.1.augment cb s.2
    .inl (h, h.parent s.2)

def rbAugmentPropagate (n : ℕ) (cb : Callback β) (x : ℕ) (h : Heap β) : Option (Heap β) :=
  if cb.isNone then some h else Repeat.run (propagateStep cb) n (h, x)

/-- `rb_link_node`, with the link below `parent` on the side, or the root. -/
def rbLinkNode (x parent : ℕ) (s : Side) (h : Heap β) : Heap β :=
  let h := h.update x ⟨parent, 0, 0, .red⟩
  if parent = 0 then { h with root := x } else h.setChild parent s x

/-- The rest of a pass of the loop of `rb_insert_augmented`, below `gparent` on the side. -/
def insertSide (cb : Callback β) (s : Side) (node parent gparent : ℕ) (h : Heap β) :
    Heap β × ℕ × ℕ :=
  let uncle := h.child gparent s.other
  if !h.isBlack uncle then
    let h := ((h.setColor uncle .black).setColor parent .black).setColor gparent .red
    (h, gparent, h.parent gparent)
  else
    let (h, node, parent) := if h.child parent s.other = node then
      (rotate cb s parent h, parent, node) else (h, node, parent)
    let h := (h.setColor parent .black).setColor gparent .red
    (rotate cb s.other gparent h, node, parent)

/-- A pass of the loop of `rb_insert_augmented`. -/
def insertStep (cb : Callback β) (st : Heap β × ℕ × ℕ) : (Heap β × ℕ × ℕ) ⊕ Heap β :=
  let (h, node, parent) := st
  if h.isBlack parent then .inr h
  else
    let gparent := h.parent parent
    if gparent = 0 then .inr h
    else if h.child gparent .left = parent then .inl (insertSide cb .left node parent gparent h)
    else .inl (insertSide cb .right node parent gparent h)

def rbInsertAugmented (n : ℕ) (cb : Callback β) (x : ℕ) (h : Heap β) : Option (Heap β) := do
  let parent := h.parent x
  let h ← rbAugmentPropagate n cb x h
  let h ← Repeat.run (insertStep cb) n (h, x, parent)
  return h.setColor h.root .black

/-- The end of a pass of the loop of `__rb_erase_color` with a red nephew. -/
def eraseLast (cb : Callback β) (s : Side) (parent other : ℕ) (h : Heap β) : Heap β :=
  let h := if other ≠ 0 then
      let h := h.setColor other (h.color parent)
      if h.child other s.other ≠ 0 then h.setColor (h.child other s.other) .black else h
    else h
  rotate cb s parent (h.setColor parent .black)

/-- The part of a pass of the loop of `__rb_erase_color` with a red nephew. -/
def eraseRotate (cb : Callback β) (s : Side) (parent other : ℕ) (h : Heap β) : Heap β :=
  if h.isBlack (h.child other s.other) then
    let h := if h.child other s ≠ 0 then h.setColor (h.child other s) .black else h
    let h := rotate cb s.other other (h.setColor other .red)
    eraseLast cb s parent (h.child parent s.other) h
  else eraseLast cb s parent other h

/-- The rest of a pass of the loop of `__rb_erase_color`, below `parent` on the side.  The flag says
that the loop ends. -/
def eraseSide (cb : Callback β) (s : Side) (parent : ℕ) (h : Heap β) : Heap β × ℕ × ℕ × Bool :=
  let other := h.child parent s.other
  let (h, other) := if !h.isBlack other then
      let h := rotate cb s parent ((h.setColor other .black).setColor parent .red)
      (h, h.child parent s.other)
    else (h, other)
  if other = 0 then (h, parent, h.parent parent, false)
  else if h.isBlack (h.child other s) && h.isBlack (h.child other s.other) then
    let h := h.setColor other .red
    (h, parent, h.parent parent, false)
  else
    let h := eraseRotate cb s parent other h
    (h, h.root, parent, true)

/-- A pass of the loop of `__rb_erase_color`. -/
def eraseStep (cb : Callback β) (st : Heap β × ℕ × ℕ × Bool) :
    (Heap β × ℕ × ℕ × Bool) ⊕ (Heap β × ℕ) :=
  let (h, node, parent, stop) := st
  if !stop && h.isBlack node && node ≠ h.root then
    if h.child parent .left = node then .inl (eraseSide cb .left parent h)
    else .inl (eraseSide cb .right parent h)
  else .inr (h, node)

def rbEraseColor (n : ℕ) (cb : Callback β) (node parent : ℕ) (h : Heap β) : Option (Heap β) := do
  let (h, node) ← Repeat.run (eraseStep cb) n (h, node, parent, false)
  return if node ≠ 0 then h.setColor node .black else h

def deepest (n : ℕ) (s : Side) (h : Heap β) (x : ℕ) : Option ℕ :=
  Repeat.run (fun x => if h.child x s ≠ 0 then .inl (h.child x s) else .inr x) n x

/-- `child` takes the place of `x`. -/
def unlinkNode (h : Heap β) (x child : ℕ) : Heap β :=
  let parent := h.parent x
  let h := if child ≠ 0 then h.setParent child parent else h
  h.relink .left parent x child

/-- The part of `rb_erase_augmented` in which `node`, with one child, takes the place of `old`; and
the lowest node whose subtrees have changed. -/
def takePlace (h : Heap β) (old node child parent : ℕ) : Heap β × ℕ :=
  let (h, parent) := if h.parent node = old then
      (if child ≠ 0 then h.setParent child node else h, node)
    else
      ((h.setChild node .right (h.child old .right)).setParent (h.child old .right) node, parent)
  let h := (h.setParent node (h.parent old)).setColor node (h.color old)
  let h := h.setChild node .left (h.child old .left)
  let h := h.relink .left (h.parent old) old node
  (h.setParent (h.child old .left) node, parent)

def rbEraseAugmented (n : ℕ) (cb : Callback β) (x : ℕ) (h : Heap β) : Option (Heap β) := do
  let (h, child, parent, color) ←
    if h.child x .left = 0 then do
      let child := h.child x .right
      let parent := h.parent x
      let color := h.color x
      let h ← rbAugmentPropagate n cb parent (unlinkNode h x child)
      some (h, child, parent, color)
    else if h.child x .right = 0 then do
      let child := h.child x .left
      let parent := h.parent x
      let color := h.color x
      let h ← rbAugmentPropagate n cb parent (unlinkNode h x child)
      some (h, child, parent, color)
    else do
      let old := x
      let node ← deepest n .left h (h.child x .right)
      let child := h.child node .right
      let parent := h.parent node
      let color := h.color node
      let (h, parent) := takePlace (unlinkNode h node child) old node child parent
      let h ← rbAugmentPropagate n cb parent (h.augment cb node)
      some (h, child, parent, color)
  if color = .black then rbEraseColor n cb child parent h else some h

/-- `rb_first` and `rb_last`. -/
def rbEnd (n : ℕ) (s : Side) (h : Heap β) : Option ℕ :=
  if h.root = 0 then some 0 else deepest n s h h.root

def rbFirst (n : ℕ) (h : Heap β) : Option ℕ := rbEnd n .left h

def rbLast (n : ℕ) (h : Heap β) : Option ℕ := rbEnd n .right h

/-- A pass of the loop up, as long as the node is a child on the side. -/
def climbStep (h : Heap β) (s : Side) (x : ℕ) : ℕ ⊕ ℕ :=
  let parent := h.parent x
  if parent ≠ 0 ∧ h.child parent s = x then .inl parent else .inr parent

/-- `rb_next` and `rb_prev`: the neighbour on the side. -/
def rbStep (n : ℕ) (s : Side) (h : Heap β) (x : ℕ) : Option ℕ :=
  if h.parent x = x then some 0
  else if h.child x s ≠ 0 then deepest n s.other h (h.child x s)
  else Repeat.run (climbStep h s) n x

def rbNext (n : ℕ) (h : Heap β) (x : ℕ) : Option ℕ := rbStep n .right h x

def rbPrev (n : ℕ) (h : Heap β) (x : ℕ) : Option ℕ := rbStep n .left h x

def rbLeftDeepestNode (n : ℕ) (h : Heap β) (x : ℕ) : Option ℕ :=
  Repeat.run (fun x =>
    if h.child x .left ≠ 0 then .inl (h.child x .left)
    else if h.child x .right ≠ 0 then .inl (h.child x .right)
    else .inr x) n x

def rbNextPostorder (n : ℕ) (h : Heap β) (x : ℕ) : Option ℕ :=
  if x = 0 then some 0
  else
    let parent := h.parent x
    if parent ≠ 0 ∧ h.child parent .left = x ∧ h.child parent .right ≠ 0 then
      rbLeftDeepestNode n h (h.child parent .right)
    else some parent

def rbFirstPostorder (n : ℕ) (h : Heap β) : Option ℕ :=
  if h.root = 0 then some 0 else rbLeftDeepestNode n h h.root

end AvoryOS.Rb
