import AvoryOS.Lib.Repeat
import Mathlib.Data.List.Basic
import Mathlib.Algebra.Order.Ring.Int

/-!
# The regions of an address space

The regions are the nodes of an AVL tree by their start, and each node has the largest end of its
subtree.  A list of regions is the tree, a count, and the addresses of the four nodes used last,
which are looked at before the tree.

A node keeps its address when it gets the data of another: that is how a node with two children
is deleted.  So the tree carries the addresses of its nodes.  What the memory of a node holds
that is not in the tree is anything, and so is what the allocator returns, except that it returns
no node of the tree.  Counts of references to files and to Linux wrappers are left out.
-/

namespace AvoryOS.Vma

/-- The data of a `struct vma`; `0` is the null pointer. -/
structure Region where
  start : ℕ
  stop : ℕ
  prot : ℕ
  flags : ℕ
  offset : ℕ
  fileSize : ℕ
  fd : ℤ
  fileNode : ℕ
  linuxVma : ℕ
  numaPolicy : ℤ
  numaNodemask : ℕ
  numaPreferredNode : ℤ
  deriving DecidableEq

@[grind] def Region.Has (v : Region) (addr : ℕ) : Prop := v.start ≤ addr ∧ addr < v.stop

/-- The region has addresses of the range. -/
@[grind] def Region.Meets (v : Region) (start stop : ℕ) : Prop := start < v.stop ∧ v.start < stop

instance (v : Region) (addr : ℕ) : Decidable (v.Has addr) := inferInstanceAs (Decidable (_ ∧ _))

instance (v : Region) (start stop : ℕ) : Decidable (v.Meets start stop) :=
  inferInstanceAs (Decidable (_ ∧ _))

/-- The tree of `struct vma`; `p` is the address of the node. -/
inductive Tree
  | nil
  | node (p : ℕ) (v : Region) (maxEnd height : ℕ) (left right : Tree)
  deriving DecidableEq

namespace Tree

def getHeight : Tree → ℕ
  | nil => 0
  | node _ _ _ h _ _ => h

def getMaxEnd : Tree → ℕ
  | nil => 0
  | node _ _ m _ _ _ => m

def left : Tree → Tree
  | nil => nil
  | node _ _ _ _ l _ => l

def right : Tree → Tree
  | nil => nil
  | node _ _ _ _ _ r => r

/-- `node->start`. -/
def start : Tree → ℕ
  | nil => 0
  | node _ v _ _ _ _ => v.start

def entries : Tree → List (ℕ × Region)
  | nil => []
  | node p v _ _ l r => l.entries ++ (p, v) :: r.entries

def updateNode : Tree → Tree
  | nil => nil
  | node p v _ _ l r =>
    node p v (max (max v.stop l.getMaxEnd) r.getMaxEnd) (1 + max l.getHeight r.getHeight) l r

def rightRotate : Tree → Tree
  | node y vy my hy (node x vx mx hx a b) c =>
    updateNode (node x vx mx hx a (updateNode (node y vy my hy b c)))
  | t => t

def leftRotate : Tree → Tree
  | node x vx mx hx a (node y vy my hy b c) =>
    updateNode (node y vy my hy (updateNode (node x vx mx hx a b)) c)
  | t => t

def getBalance : Tree → ℤ
  | nil => 0
  | node _ _ _ _ l r => (l.getHeight : ℤ) - r.getHeight

/-- `node->left = left_rotate(node->left)`. -/
def rotateLeftChild : Tree → Tree
  | nil => nil
  | node p v m h l r => node p v m h l.leftRotate r

/-- `node->right = right_rotate(node->right)`. -/
def rotateRightChild : Tree → Tree
  | nil => nil
  | node p v m h l r => node p v m h l r.rightRotate

/-- The end of `insert_node`. -/
def balanceInsert (new : ℕ) (t : Tree) : Tree :=
  if 1 < t.getBalance ∧ new < t.left.start then t.rightRotate
  else if t.getBalance < -1 ∧ t.right.start < new then t.leftRotate
  else if 1 < t.getBalance ∧ t.left.start < new then t.rotateLeftChild.rightRotate
  else if t.getBalance < -1 ∧ new < t.right.start then t.rotateRightChild.leftRotate
  else t

def insertNode (p : ℕ) (new : Region) : Tree → Tree
  | nil => node p new new.stop 1 nil nil
  | node q v m h l r =>
    if new.start < v.start then
      balanceInsert new.start (updateNode (node q v m h (insertNode p new l) r))
    else if v.start < new.start then
      balanceInsert new.start (updateNode (node q v m h l (insertNode p new r)))
    else node q v m h l r

/-- The data of the leftmost node. -/
def minValueNode : Tree → Option Region
  | nil => none
  | node _ v _ _ nil _ => some v
  | node _ _ _ _ l _ => l.minValueNode

/-- The end of `delete_node`. -/
def balanceDelete (t : Tree) : Tree :=
  if 1 < t.getBalance ∧ 0 ≤ t.left.getBalance then t.rightRotate
  else if 1 < t.getBalance ∧ t.left.getBalance < 0 then t.rotateLeftChild.rightRotate
  else if t.getBalance < -1 ∧ t.right.getBalance ≤ 0 then t.leftRotate
  else if t.getBalance < -1 ∧ 0 < t.right.getBalance then t.rotateRightChild.leftRotate
  else t

/-- The tree, and whether the node was found. -/
def deleteNode : Tree → ℕ → Tree × Bool
  | nil, _ => (nil, false)
  | node p v m h l r, start =>
    if start < v.start then
      let d := deleteNode l start
      (balanceDelete (updateNode (node p v m h d.1 r)), d.2)
    else if v.start < start then
      let d := deleteNode r start
      (balanceDelete (updateNode (node p v m h l d.1)), d.2)
    else
      match l, r with
      | nil, r => (balanceDelete (updateNode r), true)
      | l, nil => (balanceDelete (updateNode l), true)
      | l, r =>
        -- the node stays and takes the data of its successor
        match minValueNode r with
        | some w => (balanceDelete (updateNode (node p w m h l (deleteNode r w.start).1)), true)
        | none => (nil, true)

def find (addr : ℕ) : Tree → Option (ℕ × Region)
  | nil => none
  | node p v _ _ l r =>
    if v.Has addr then some (p, v)
    else if addr < v.start then l.find addr
    else r.find addr

def findOverlap (start stop : ℕ) : Tree → Option (ℕ × Region)
  | nil => none
  | node p v m _ l r =>
    match if l ≠ nil ∧ start < l.getMaxEnd then l.findOverlap start stop else none with
    | some e => some e
    | none =>
      if v.Meets start stop then some (p, v)
      else if m ≤ start then none
      else r.findOverlap start stop

def modify (p : ℕ) (f : Region → Region) : Tree → Tree
  | nil => nil
  | node q v m h l r => node q (if q = p then f v else v) m h (l.modify p f) (r.modify p f)

end Tree

open Vma.Tree

structure Mru where
  c0 : Option ℕ
  c1 : Option ℕ
  c2 : Option ℕ
  c3 : Option ℕ
  deriving DecidableEq

def Mru.empty : Mru := ⟨none, none, none, none⟩

def Mru.push (c : Mru) (p : ℕ) : Mru := ⟨some p, c.c0, c.c1, c.c2⟩

/-- The nodes in the order in which they are looked at. -/
def Mru.nodes (c : Mru) : List ℕ := [c.c0, c.c1, c.c2, c.c3].filterMap id

/-- `struct vma_list`. -/
structure VmaList where
  root : Tree
  count : ℤ
  cache : Mru

/-- `vma_list_init`. -/
def vmaListInit : VmaList := ⟨.nil, 0, .empty⟩

/-- What the operations find outside of the tree. -/
structure Memory where
  /-- The node that the allocator returns, if it has one. -/
  alloc : Tree → Option ℕ
  /-- What the memory of a node holds that is not in the tree. -/
  stale : ℕ → Region
  fresh : ∀ t p, alloc t = some p → p ∉ t.entries.map Prod.fst

def Memory.Plenty (m : Memory) : Prop := ∀ t, (m.alloc t).isSome

def Memory.load (m : Memory) (t : Tree) (p : ℕ) : Region :=
  ((t.entries.find? fun e => e.1 = p).map Prod.snd).getD (m.stale p)

/-- The node with the address, and the list with the node in front of the cache. -/
def vmaFind (m : Memory) (l : VmaList) (addr : ℕ) : Option (ℕ × Region) × VmaList :=
  match l.cache.nodes.find? fun p => (m.load l.root p).Has addr with
  | some p => (some (p, m.load l.root p), l)
  | none =>
    match l.root.find addr with
    | some e => (some e, { l with cache := l.cache.push e.1 })
    | none => (none, l)

def vmaFindOverlap (l : VmaList) (start stop : ℕ) : Option (ℕ × Region) :=
  l.root.findOverlap start stop

/-- `0`, or `-1` and no change. -/
def vmaAdd (m : Memory) (l : VmaList) (start stop prot flags : ℕ) (fd : ℤ)
    (offset fileNode fileSize : ℕ) : ℤ × VmaList :=
  match vmaFindOverlap l start stop with
  | some _ => (-1, l)
  | none =>
    match m.alloc l.root with
    | none => (-1, l)
    | some p =>
      (0, { root := l.root.insertNode p
              ⟨start, stop, prot, flags, offset, fileSize, fd, fileNode, 0, 0, 0, 0⟩
            count := l.count + 1
            cache := l.cache.push p })

def vmaAttachLinux (m : Memory) (l : VmaList) (start linuxVma : ℕ) : VmaList :=
  if linuxVma = 0 then l
  else
    match vmaFind m l start with
    | (none, l) => l
    | (some (p, v), l) =>
      if v.linuxVma = linuxVma then l
      else { l with root := l.root.modify p fun v => { v with linuxVma := linuxVma } }

/-- What is left of a file window of `size` bytes after `rel` of them, in `len` bytes. -/
def window (size rel len : ℕ) : ℕ := if rel < size then min (size - rel) len else 0

/-- What is left of a region outside of the range is added again. -/
def putBack (m : Memory) (start stop : ℕ) (v : Region) (l : VmaList) : VmaList :=
  if v.start < start ∧ stop < v.stop then
    let rel := stop - v.start
    let l := (vmaAdd m l v.start start v.prot v.flags v.fd v.offset v.fileNode
      (min v.fileSize (start - v.start))).2
    let l := vmaAttachLinux m l v.start v.linuxVma
    let l := (vmaAdd m l stop v.stop v.prot v.flags v.fd ((v.offset + rel) % 2 ^ 64) v.fileNode
      (window v.fileSize rel (v.stop - stop))).2
    vmaAttachLinux m l stop v.linuxVma
  else if start ≤ v.start ∧ v.start < stop ∧ stop < v.stop then
    let rel := stop - v.start
    let l := (vmaAdd m l stop v.stop v.prot v.flags v.fd ((v.offset + rel) % 2 ^ 64) v.fileNode
      (window v.fileSize rel (v.stop - stop))).2
    vmaAttachLinux m l stop v.linuxVma
  else if v.stop ≤ stop ∧ v.start < start ∧ start < v.stop then
    let l := (vmaAdd m l v.start start v.prot v.flags v.fd v.offset v.fileNode
      (min v.fileSize (start - v.start))).2
    vmaAttachLinux m l v.start v.linuxVma
  else l

/-- A pass of the loop of `vma_remove`; the flag says that something was removed. -/
def removeStep (m : Memory) (start stop : ℕ) (s : VmaList × Bool) :
    (VmaList × Bool) ⊕ (VmaList × Bool) :=
  match vmaFindOverlap s.1 start stop with
  | none => .inr s
  | some (_, v) =>
    .inl (putBack m start stop v
      { s.1 with root := (s.1.root.deleteNode v.start).1, count := s.1.count - 1 }, true)

/-- The loop runs at most once for each node. -/
def vmaRemove (m : Memory) (l : VmaList) (start stop : ℕ) : Option (VmaList × Bool) :=
  Repeat.run (removeStep m start stop) (l.root.entries.length + 1)
    ({ l with cache := .empty }, false)

/-- A pass of the loop of `vma_mprotect`, from the list and `curr`. -/
def mprotectStep (m : Memory) (start stop newProt : ℕ) (s : VmaList × ℕ) :
    (VmaList × ℕ) ⊕ Option VmaList :=
  if s.2 < stop then
    match vmaFind m s.1 s.2 with
    | (none, l) =>
      match vmaFindOverlap l s.2 stop with
      | none => .inr (some l)
      | some (_, v) => .inl (l, v.start)
    | (some (_, v), l) =>
      let mStart := max v.start start
      let mEnd := min v.stop stop
      let rel := mStart - v.start
      match vmaRemove m l mStart mEnd with
      | none => .inr none
      | some (l, _) =>
        let l := (vmaAdd m l mStart mEnd newProt v.flags v.fd ((v.offset + rel) % 2 ^ 64)
          v.fileNode (window v.fileSize rel (mEnd - mStart))).2
        .inl (vmaAttachLinux m l mStart v.linuxVma, mEnd)
  else .inr (some s.1)

/-- The loop goes on by an address at least. -/
def vmaMprotect (m : Memory) (l : VmaList) (start stop newProt : ℕ) : Option VmaList :=
  (Repeat.run (mprotectStep m start stop newProt) (stop - start + 1) (l, start)).join

/-- `MAP_LOCKED`, `MAP_GROWSDOWN` and `MAP_SYSV_SHM`. -/
def mapLocked : ℕ := 0x2000
def mapGrowsdown : ℕ := 0x100
def mapSysvShm : ℕ := 0x100000000

/-- `can_merge`. -/
def canMerge (prev cur : Region) : Bool :=
  prev.stop = cur.start && prev.prot = cur.prot && prev.flags = cur.flags &&
    prev.numaPolicy = cur.numaPolicy && prev.numaNodemask = cur.numaNodemask &&
    prev.numaPreferredNode = cur.numaPreferredNode && prev.fileNode = 0 && cur.fileNode = 0 &&
    prev.linuxVma = cur.linuxVma &&
    (prev.flags ||| cur.flags) &&& (mapGrowsdown ||| mapSysvShm) = 0

/-- The loop of `vma_merge_adjacent`, with `prev` the last node that is kept. -/
def mergeLoop (prev : ℕ × Region) : List (ℕ × Region) → List (ℕ × Region)
  | [] => [prev]
  | cur :: rest =>
    if canMerge prev.2 cur.2 then
      mergeLoop (prev.1, { prev.2 with stop := cur.2.stop }) rest
    else prev :: mergeLoop cur rest

/-- The nodes of the array become a tree. -/
def vmaBuildBalanced (nodes : List (ℕ × Region)) : Tree :=
  match h : nodes.drop (nodes.length / 2) with
  | [] => .nil
  | (p, v) :: rest =>
    updateNode (.node p v 0 0 (vmaBuildBalanced (nodes.take (nodes.length / 2)))
      (vmaBuildBalanced rest))
termination_by nodes.length
decreasing_by
  · have := congrArg List.length h
    simp only [List.length_drop, List.length_cons] at this
    simp only [List.length_take]
    omega
  · have := congrArg List.length h
    simp only [List.length_drop, List.length_cons] at this
    omega

/-- `room` says whether the array of more than `64` nodes is allocated. -/
def vmaMergeAdjacent (l : VmaList) (room : Bool) : VmaList :=
  if l.count < 2 then l
  else if 64 < l.count ∧ !room then l
  else
    match l.root.entries with
    | [] => { l with cache := .empty }
    | first :: rest =>
      let kept := mergeLoop first rest
      if kept.length ≠ (first :: rest).length then
        ⟨vmaBuildBalanced kept, kept.length, .empty⟩
      else { l with cache := .empty }

def unlocked (flags : ℕ) : ℕ := flags &&& (2 ^ 64 - 1 - mapLocked)

/-- The node at the start of a region gets the region's NUMA policy. -/
def copyPolicy (m : Memory) (dst : VmaList) (v : Region) : VmaList :=
  match vmaFind m dst v.start with
  | (none, dst) => dst
  | (some (p, _), dst) =>
    { dst with root := dst.root.modify p fun w =>
        { w with
          numaPolicy := v.numaPolicy
          numaNodemask := v.numaNodemask
          numaPreferredNode := v.numaPreferredNode } }

def cloneRecursive (m : Memory) (dst : VmaList) : Tree → Bool × VmaList
  | .nil => (true, dst)
  | .node _ v _ _ l r =>
    let a := vmaAdd m dst v.start v.stop v.prot (unlocked v.flags) v.fd v.offset v.fileNode
      v.fileSize
    if a.1 ≠ 0 then (false, a.2)
    else
      let dst := copyPolicy m (vmaAttachLinux m a.2 v.start v.linuxVma) v
      let c := cloneRecursive m dst l
      if c.1 then cloneRecursive m c.2 r else c

/-- The new list is destroyed if an allocation fails. -/
def vmaListClone (m : Memory) (src : VmaList) : Bool × VmaList :=
  let c := cloneRecursive m vmaListInit src.root
  if c.1 then c else (false, vmaListInit)

end AvoryOS.Vma
