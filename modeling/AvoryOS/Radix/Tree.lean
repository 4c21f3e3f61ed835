import Mathlib.Logic.Function.Basic
import Mathlib.Data.Nat.Notation

/-!
# The radix tree

A tree of nodes with `64` slots each, over keys of `64` bits.  A slot of a node at level `0` has
a value, and a slot of a node at a higher level the address of a node one level below.  The tree
is as high as its largest key needs.

The memory is a map from addresses to nodes.  An operation that changes the tree is the list of
its stores, in the order in which the code makes them; it runs under the lock, so what it reads
is what it has stored itself.  An address is taken for a node if it is not `0`: the code's other
checks hold for every address that the allocator returns.

## Main definitions

* `Tree` — the tree and the memory of its nodes.
* `Write`, `Tree.run` — single stores, and a list of them.
* `lookup`, `insert`, `replace`, `delete` — the operations.
* `iterNode`, `forEachRange` — iteration.
* `validate` — the code's own check of a tree.
-/

namespace AvoryOS.Radix

/-- `struct asc_radix_tree_node`; `0` is the null pointer. -/
structure Node where
  slots : ℕ → ℕ
  count : ℕ

/-- A node as `radix_node_alloc` returns it. -/
def Node.zero : Node := ⟨fun _ => 0, 0⟩

/-- `struct radix_tree`, with the memory of the nodes. -/
structure Tree where
  heap : ℕ → Node
  root : ℕ
  entries : ℕ
  nodes : ℕ
  height : ℕ

inductive Write
  | clear (a : ℕ)
  | slot (a i v : ℕ)
  | count (a n : ℕ)
  | root (v : ℕ)
  | height (n : ℕ)
  | entries (n : ℕ)
  | nodes (n : ℕ)

def Tree.setNode (t : Tree) (a : ℕ) (node : Node) : Tree :=
  { t with heap := Function.update t.heap a node }

def Tree.write (t : Tree) : Write → Tree
  | .clear a => t.setNode a Node.zero
  | .slot a i v => t.setNode a { t.heap a with slots := Function.update (t.heap a).slots i v }
  | .count a n => t.setNode a { t.heap a with count := n }
  | .root v => { t with root := v }
  | .height n => { t with height := n }
  | .entries n => { t with entries := n }
  | .nodes n => { t with nodes := n }

/-- The stores of an operation, one after the other. -/
def Tree.run (t : Tree) (ws : List Write) : Tree := ws.foldl Tree.write t

/-- `asc_radix_tree_init`. -/
def Tree.empty (heap : ℕ → Node) : Tree := ⟨heap, 0, 0, 0, 0⟩

/-- `radix_required_height`, from `height` on. -/
def requiredFrom (index height : ℕ) : ℕ :=
  if height < 11 ∧ index >>> (height * 6) ≠ 0 then requiredFrom index (height + 1) else height
termination_by 11 - height

def requiredHeight (index : ℕ) : ℕ := requiredFrom index 1

/-- `radix_slot`. -/
def radixSlot (index level : ℕ) : ℕ := index >>> (level * 6) % 64

/-! ## Lookup -/

/-- The walk from a node at `level` to the leaf of a key, `0` if a node is missing. -/
def descend (t : Tree) (index : ℕ) : ℕ → ℕ → ℕ
  | 0, node => node
  | level + 1, node =>
    let child := (t.heap node).slots (radixSlot index (level + 1))
    if child = 0 then 0 else descend t index level child

/-- `radix_lookup_locked`. -/
def lookup (t : Tree) (index : ℕ) : ℕ :=
  if t.root = 0 ∨ t.height < requiredHeight index then 0
  else
    let leaf := descend t index (t.height - 1) t.root
    if leaf = 0 then 0 else (t.heap leaf).slots (radixSlot index 0)

/-! ## Insertion -/

inductive Status
  | ok
  | einval
  | eexist
  | enomem
  deriving DecidableEq

/-- Where a branch is missing on the way of a key: the level of the child that is not there, with
the node that has no such child; or `0` with the leaf. -/
def attachPoint (t : Tree) (index : ℕ) : ℕ → ℕ → ℕ × ℕ
  | 0, node => (0, node)
  | level + 1, node =>
    let child := (t.heap node).slots (radixSlot index (level + 1))
    if child = 0 then (level + 1, node) else attachPoint t index level child

/-- New nodes in a chain, from the top one down to the leaf with the value. -/
def chain (index v : ℕ) : List ℕ → List Write
  | [] => []
  | [a] => [.slot a (radixSlot index 0) v, .count a 1]
  | a :: b :: rest =>
    .slot a (radixSlot index (rest.length + 1)) b :: .count a 1 :: chain index v (b :: rest)

def wrap (root : ℕ) : List ℕ → List Write
  | [] => []
  | a :: rest => .slot a 0 (rest.headD root) :: .count a 1 :: wrap root rest

/-- `asc_radix_tree_insert`.  Allocation gives the addresses of `alloc`, and fails after them. -/
def insert (t : Tree) (index v : ℕ) (alloc : List ℕ) : Status × List Write :=
  if v = 0 then (.einval, [])
  else if lookup t index ≠ 0 then (.eexist, [])
  else
    let needed := requiredHeight index
    if t.root = 0 then
      let fresh := alloc.take needed
      if fresh.length < needed then (.enomem, fresh.map .clear)
      else (.ok, fresh.map .clear ++ chain index v fresh ++
        [.root (fresh.headD 0), .height needed, .nodes (t.nodes + needed),
          .entries (t.entries + 1)])
    else if t.height < needed then
      let wrapperCount := needed - t.height
      let branchCount := needed - 1
      let fresh := alloc.take (wrapperCount + branchCount)
      if fresh.length < wrapperCount + branchCount then (.enomem, fresh.map .clear)
      else
        let wrappers := fresh.take wrapperCount
        let branch := fresh.drop wrapperCount
        let newRoot := wrappers.headD 0
        -- the count of the new root goes from one to two
        (.ok, fresh.map .clear ++ wrap t.root wrappers ++
          [.slot newRoot (radixSlot index (needed - 1)) (branch.headD 0), .count newRoot 2] ++
          chain index v branch ++
          [.root newRoot, .height needed, .nodes (t.nodes + (wrapperCount + branchCount)),
            .entries (t.entries + 1)])
    else
      match attachPoint t index (t.height - 1) t.root with
      | (0, leaf) =>
        (.ok, [.slot leaf (radixSlot index 0) v, .count leaf ((t.heap leaf).count + 1),
          .entries (t.entries + 1)])
      | (branchCount, parent) =>
        let fresh := alloc.take branchCount
        if fresh.length < branchCount then (.enomem, fresh.map .clear)
        else (.ok, fresh.map .clear ++
          [.slot parent (radixSlot index branchCount) (fresh.headD 0),
            .count parent ((t.heap parent).count + 1)] ++
          chain index v fresh ++
          [.nodes (t.nodes + branchCount), .entries (t.entries + 1)])

/-! ## Replacement and deletion -/

/-- `asc_radix_tree_replace`: the old value and the stores. -/
def replace (t : Tree) (index v : ℕ) : ℕ × List Write :=
  if v = 0 ∨ t.root = 0 ∨ t.height < requiredHeight index then (0, [])
  else
    let leaf := descend t index (t.height - 1) t.root
    if leaf = 0 then (0, [])
    else
      let old := (t.heap leaf).slots (radixSlot index 0)
      (old, if old = 0 then [] else [.slot leaf (radixSlot index 0) v])

/-- The nodes on the way of a key, from the leaf up. -/
def path (t : Tree) (index : ℕ) : ℕ → ℕ → Option (List ℕ)
  | 0, node => some [node]
  | level + 1, node =>
    let child := (t.heap node).slots (radixSlot index (level + 1))
    if child = 0 then none else (path t index level child).map (· ++ [node])

/-- Nodes that have become empty are taken out, from `level` up. -/
def collapse (t : Tree) (index : ℕ) : ℕ → List ℕ → List Write
  | level, node :: parent :: rest =>
    if (t.heap node).count ≠ 0 then []
    else
      let ws : List Write := [.slot parent (radixSlot index (level + 1)) 0,
        .count parent ((t.heap parent).count - 1), .nodes (t.nodes - 1)]
      ws ++ collapse (t.run ws) index (level + 1) (parent :: rest)
  | _, _ => []

/-- A root with only its first child gives way to that child. -/
def shrink (t : Tree) : ℕ → List Write
  | height + 2 =>
    if (t.heap t.root).count = 1 ∧ (t.heap t.root).slots 0 ≠ 0 then
      let ws : List Write := [.root ((t.heap t.root).slots 0), .height (height + 1),
        .nodes (t.nodes - 1)]
      ws ++ shrink (t.run ws) (height + 1)
    else []
  | _ => []

/-- The root goes with the last value. -/
def dropRoot (t : Tree) : List Write :=
  if t.entries = 0 then [.root 0, .height 0, .nodes (t.nodes - 1)] else []

/-- The stores of `asc_radix_tree_delete` once the value is found, with the nodes above it. -/
def remove (t : Tree) (index leaf : ℕ) (above : List ℕ) : List Write :=
  let w1 : List Write := [.slot leaf (radixSlot index 0) 0,
    .count leaf ((t.heap leaf).count - 1), .entries (t.entries - 1)]
  let w2 := collapse (t.run w1) index 0 (leaf :: above)
  let t2 := (t.run w1).run w2
  let w3 := shrink t2 t2.height
  w1 ++ w2 ++ w3 ++ dropRoot (t2.run w3)

/-- `asc_radix_tree_delete`: the old value and the stores. -/
def delete (t : Tree) (index : ℕ) : ℕ × List Write :=
  if t.root = 0 ∨ t.height < requiredHeight index then (0, [])
  else
    match path t index (t.height - 1) t.root with
    | some (leaf :: above) =>
      let old := (t.heap leaf).slots (radixSlot index 0)
      if old = 0 then (0, []) else (old, remove t index leaf above)
    | _ => (0, [])

/-! ## Iteration and validation -/

/-- A loop over slots that a callback can end; it returns whether it ran to the end. -/
def forSlots {σ : Type} (f : ℕ → σ → Bool × σ) : List ℕ → σ → Bool × σ
  | [], s => (true, s)
  | i :: rest, s =>
    match f i s with
    | (false, s') => (false, s')
    | (true, s') => forSlots f rest s'

/-- `radix_iter_node`. -/
def iterNode {σ : Type} (t : Tree) (first last : ℕ) (callback : ℕ → ℕ → σ → Bool × σ) :
    ℕ → ℕ → ℕ → σ → Bool × σ
  | 0, node, above, s =>
    forSlots (fun i s =>
      if (t.heap node).slots i = 0 then (true, s)
      else
        let key := above ||| i
        if first ≤ key ∧ key ≤ last then callback key ((t.heap node).slots i) s else (true, s))
      (List.range 64) s
  | level + 1, node, above, s =>
    forSlots (fun i s =>
      if (t.heap node).slots i = 0 then (true, s)
      else iterNode t first last callback level ((t.heap node).slots i)
        (above ||| (i <<< ((level + 1) * 6)) % 2 ^ 64) s)
      (List.range 64) s

/-- `asc_radix_tree_for_each_range`. -/
def forEachRange {σ : Type} (t : Tree) (first last : ℕ) (callback : ℕ → ℕ → σ → Bool × σ)
    (s : σ) : Bool × σ :=
  if last < first then (false, s)
  else if t.root = 0 then (true, s)
  else iterNode t first last callback (t.height - 1) t.root 0 s

/-- The sum of what a check finds in the slots of a node, with the number of slots in use. -/
def sumSlots (node : Node) (f : ℕ → Option (ℕ × ℕ)) : List ℕ → Option (ℕ × ℕ × ℕ)
  | [] => some (0, 0, 0)
  | i :: rest =>
    if node.slots i = 0 then sumSlots node f rest
    else
      match f (node.slots i), sumSlots node f rest with
      | some (nodes, entries), some (count, nodes', entries') =>
        some (count + 1, nodes + nodes', entries + entries')
      | _, _ => none

/-- `radix_validate_node`: how many nodes and values there are, if the node is valid. -/
def validateNode (t : Tree) : ℕ → ℕ → Option (ℕ × ℕ)
  | 0, node =>
    match sumSlots (t.heap node) (fun _ => some (0, 1)) (List.range 64) with
    | some (count, nodes, entries) =>
      if count = (t.heap node).count ∧ count ≠ 0 then some (nodes + 1, entries) else none
    | none => none
  | level + 1, node =>
    match sumSlots (t.heap node) (validateNode t level) (List.range 64) with
    | some (count, nodes, entries) =>
      if count = (t.heap node).count ∧ count ≠ 0 then some (nodes + 1, entries) else none
    | none => none

/-- `asc_radix_tree_validate`. -/
def validate (t : Tree) : Bool :=
  if t.root = 0 then t.height = 0 ∧ t.nodes = 0 ∧ t.entries = 0
  else if t.height = 0 ∨ 11 < t.height ∨ t.entries = 0 then false
  else
    match validateNode t (t.height - 1) t.root with
    | some (nodes, entries) => nodes = t.nodes ∧ entries = t.entries
    | none => false

end AvoryOS.Radix
