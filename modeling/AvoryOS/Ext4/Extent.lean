import AvoryOS.Ext4.Node

/-!
# The extent code

Lookup, insertion and removal in the extent tree of an inode, as the code computes them.  The
root is kept decoded in the inode; `ee_block + len` is computed in 32 bits.

Every call that can fail for a reason outside the tree has its outcome in `Outcomes`, in the
order of the source, except the block allocator, which says so itself.  A failed insertion
returns the state it leaves behind.
-/

namespace AvoryOS.Ext4

open Bytes Ext3 Runs Function

/-- The block allocator: `ext2_alloc_run_hint` and `ext2_free_block`. -/
structure Allocator (m : Mount) (α : Type*) where
  /-- A run of at most the wanted length near the goal: its first block, 0 for none, and its
  length. -/
  take : α → (goal wanted : ℕ) → (ℕ × ℕ) × α
  give : α → ℕ → Bool × α
  Free : α → ℕ → Prop
  free_readable : ∀ {a b}, Free a b → Readable m b ∧ b < 2 ^ 48
  take_count : ∀ {a goal wanted}, (take a goal wanted).1.1 ≠ 0 →
    0 < (take a goal wanted).1.2 ∧ (take a goal wanted).1.2 ≤ wanted
  take_free : ∀ {a goal wanted k}, (take a goal wanted).1.1 ≠ 0 → k < (take a goal wanted).1.2 →
    Free a ((take a goal wanted).1.1 + k) ∧
      ¬ Free (take a goal wanted).2 ((take a goal wanted).1.1 + k)
  take_mono : ∀ {a goal wanted b}, Free (take a goal wanted).2 b → Free a b
  give_free : ∀ {a b x}, Free (give a b).2 x → Free a x ∨ x = b

/-- The inode in memory, as far as the extent tree reads it. -/
structure Inode where
  size : ℕ
  /-- `i_blocks`, in sectors. -/
  blocks : ℕ
  /-- `EXT4_EXTENTS_FL`. -/
  extents : Bool
  /-- `i_block`, with the magic number in place. -/
  root : Node
  deriving DecidableEq, Repr

/-- The blocks as `ext2_read_block` returns them, and the allocator. -/
structure Store (α : Type*) where
  blocks : ℕ → Image
  alloc : α

section

variable {m : Mount} {α : Type*}

def emptyRoot : Node := .leaf 4 0 []

/-- `ext4_extent_init_inode`. -/
def initInode (ino : Inode) : Inode := { ino with extents := true, root := emptyRoot }

/-! ## Lookup -/

/-- The entry to descend into: the last one whose key is not above the block, else the first
one; with the entries on both sides. -/
def best (logical : ℕ) : List Index → Option (List Index × Index × List Index)
  | [] => none
  | i :: idxs =>
    match best logical idxs with
    | none => some ([], i, [])
    | some (pre, j, post) =>
      if j.block ≤ logical then some (i :: pre, j, post) else some ([], i, idxs)

/-- How far a hole can reach: up to the next key. -/
def holeLimit (logical : ℕ) (idxs : List Index) (limit : ℕ) : ℕ :=
  idxs.foldl (fun h i => if i.block ≤ logical then h else min h (i.block - logical)) limit

/-- The scan of a leaf: the physical block, 0 for a hole, and the length of the run. -/
def scanLeaf (m : Mount) (logical limit : ℕ) : List Extent → ℕ × ℕ
  | [] => (0, limit)
  | e :: exts =>
    if logical < e.block then (0, e.block - logical)
    else if logical < (e.block + e.masked) % 2 ^ 32 then
      let offset := logical - e.block
      if e.len > 0x8000 ∨ e.start = 0 ∨ e.start > maxPhysBlock ∨ m.blocksCount ≤ e.start ∨
          m.blocksCount - e.start ≤ offset then
        (0, e.masked - offset)
      else (e.start + offset, e.masked - offset)
    else scanLeaf m logical limit exts

/-- The walk from a node, with the number of blocks it may still read. -/
def walk (m : Mount) (d : ℕ → Image) (logical : ℕ) : ℕ → Node → ℕ → ℕ × ℕ
  | _, .leaf _ _ exts, limit => scanLeaf m logical limit exts
  | 0, .index _ _ _ _, _ => (0, 1)
  | reads + 1, .index _ _ _ idxs, limit =>
    match best logical idxs with
    | none => (0, 1)
    | some (_, i, _) =>
      match readNode m d i.leaf with
      | none => (0, 1)
      | some node => walk m d logical reads node (holeLimit logical idxs limit)

/-- `ext4_get_extent_run`. -/
def getExtentRun (m : Mount) (d : ℕ → Image) (root : Node) (logical : ℕ) : ℕ × ℕ :=
  let limit := 2 ^ 32 - 1 - logical
  walk m d logical 4 root (if limit = 0 then 1 else limit)

/-- `ext4_get_block_num`. -/
def getBlockNum (m : Mount) (d : ℕ → Image) (root : Node) (logical : ℕ) : ℕ :=
  (getExtentRun m d root logical).1

/-! ## Entries of a node -/

/-- What `ext4_extent_insert_leaf_entry` returns. -/
inductive LeafInsert
  | overlap
  | full
  | done (exts : List Extent)
  deriving DecidableEq, Repr

def before (logical : ℕ) (exts : List Extent) : List Extent :=
  exts.takeWhile fun e => decide (e.block < logical)

def after (logical : ℕ) (exts : List Extent) : List Extent :=
  exts.dropWhile fun e => decide (e.block < logical)

def place (e : Extent) (exts : List Extent) : List Extent :=
  before e.block exts ++ e :: after e.block exts

/-- The run continues the entry on its left, and one entry can hold both. -/
def JoinsLeft (l e : Extent) : Prop :=
  (l.block + l.masked) % 2 ^ 32 = e.block ∧ l.start + l.masked = e.start ∧ l.masked + e.len ≤ 0x7FFF

/-- The entry on the right continues the run, and one entry can hold both. -/
def JoinsRight (e r : Extent) : Prop :=
  (e.block + e.len) % 2 ^ 32 = r.block ∧ e.start + e.len = r.start ∧ r.masked + e.len ≤ 0x7FFF

/-- After a join on the left, the entry on the right fits in as well. -/
def Bridges (l e r : Extent) : Prop :=
  (e.block + e.len) % 2 ^ 32 = r.block ∧ e.start + e.len = r.start ∧
    l.masked + e.len + r.masked ≤ 0x7FFF

instance (l e : Extent) : Decidable (JoinsLeft l e) := inferInstanceAs (Decidable (_ ∧ _ ∧ _))

instance (e r : Extent) : Decidable (JoinsRight e r) := inferInstanceAs (Decidable (_ ∧ _ ∧ _))

instance (l e r : Extent) : Decidable (Bridges l e r) := inferInstanceAs (Decidable (_ ∧ _ ∧ _))

/-- Without a join on the left: join on the right, or make room. -/
def insertRight (max : ℕ) (pre post : List Extent) (e : Extent) : LeafInsert :=
  let room := if max ≤ pre.length + post.length then .full else .done (pre ++ e :: post)
  match post with
  | [] => room
  | r :: rest =>
    if r.block < (e.block + e.len) % 2 ^ 32 then .overlap
    else if JoinsRight e r then .done (pre ++ { e with len := r.masked + e.len } :: rest)
    else room

/-- The run joined to the entry on its left, and perhaps to the one on its right. -/
def joinLeft (pre : List Extent) (l : Extent) (post : List Extent) (e : Extent) : List Extent :=
  match post with
  | [] => pre ++ [{ l with len := l.masked + e.len }]
  | r :: rest =>
    if Bridges l e r then pre ++ { l with len := l.masked + e.len + r.masked } :: rest
    else pre ++ { l with len := l.masked + e.len } :: r :: rest

/-- `ext4_extent_insert_leaf_entry`. -/
def insertLeafEntry (max : ℕ) (exts : List Extent) (e : Extent) : LeafInsert :=
  let pre := before e.block exts
  let post := after e.block exts
  match pre.getLast? with
  | none => insertRight max pre post e
  | some l =>
    if e.block < (l.block + l.masked) % 2 ^ 32 then .overlap
    else if JoinsLeft l e then .done (joinLeft pre.dropLast l post e)
    else insertRight max pre post e

def placeIndex (i : Index) (idxs : List Index) : List Index :=
  idxs.takeWhile (fun j => decide (j.block < i.block)) ++
    i :: idxs.dropWhile fun j => decide (j.block < i.block)

/-- `ext4_extent_insert_index_entry`; none when the node is full. -/
def insertIndexEntry (max : ℕ) (idxs : List Index) (i : Index) : Option (List Index) :=
  if max ≤ idxs.length then none else some (placeIndex i idxs)

/-! ## Insertion -/

/-- What the calls of `ext4_extent_grow_root` give. -/
structure GrowOutcomes where
  /-- `kcalloc` of the child. -/
  buffer : Bool
  write : Bool
  deriving DecidableEq, Repr

/-- What the calls of one insertion give. -/
structure Outcomes where
  /-- The root of a leaf-only tree grows. -/
  growLeaf : GrowOutcomes
  /-- `kmalloc` and read of the inner node below a root of depth 2. -/
  indexBuffer : Bool
  indexRead : Bool
  leafBuffer : Bool
  leafRead : Bool
  /-- A leaf with room, and its parent when the key was lowered. -/
  leafWrite : Bool
  indexWrite : Bool
  /-- `kmalloc` of the sorted entries, `kcalloc` of the new leaf, and its two halves. -/
  leafList : Bool
  newLeafBuffer : Bool
  lowerLeafWrite : Bool
  upperLeafWrite : Bool
  /-- `ext4_extent_add_root_index` on a full root. -/
  growIndex : GrowOutcomes
  addBuffer : Bool
  addRead : Bool
  /-- The inner node that takes the new leaf. -/
  addWrite : Bool
  /-- `ext4_extent_split_index`. -/
  indexList : Bool
  newIndexBuffer : Bool
  lowerIndexWrite : Bool
  upperIndexWrite : Bool
  deriving DecidableEq, Repr

variable (A : Allocator m α)

def sectors (m : Mount) : ℕ := m.blockSize / 512

def writeImage (s : Store α) (b : ℕ) (image : Image) : Store α :=
  { s with blocks := update s.blocks b image }

@[simp] theorem writeImage_alloc (s : Store α) (b : ℕ) (image : Image) :
    (writeImage s b image).alloc = s.alloc := rfl

@[simp] theorem writeImage_self (s : Store α) (b : ℕ) (image : Image) :
    (writeImage s b image).blocks b = image := update_self ..

theorem writeImage_other (s : Store α) {b x : ℕ} (image : Image) (h : x ≠ b) :
    (writeImage s b image).blocks x = s.blocks x := update_of_ne h ..

/-- `ext2_free_block`, its result ignored. -/
def release (s : Store α) (b : ℕ) : Store α := { s with alloc := (A.give s.alloc b).2 }

/-- `ext4_extent_grow_root`. -/
def growRoot (o : GrowOutcomes) (s : Store α) (ino : Inode) : Bool × Store α × Inode :=
  let t := A.take s.alloc 0 1
  let s := { s with alloc := t.2 }
  if t.1.1 = 0 then (false, s, ino)
  else if o.buffer && o.write then
    (true, writeImage s t.1.1 (encode zero (ino.root.withMax (blockMax m))),
      { ino with
        blocks := ino.blocks + sectors m
        root := .index 4 (ino.root.depth + 1) ino.root.generation
          [⟨ino.root.firstLogical, t.1.1⟩] })
  else (false, release A s t.1.1, ino)

/-- `ext4_extent_split_index`: the inner node `b` is full, and `i` goes into it. -/
def splitIndex (o : Outcomes) (s : Store α) (ino : Inode) (b : ℕ) (image : Image)
    (max generation : ℕ) (idxs : List Index) (i : Index) : Bool × Store α × Inode :=
  let all := placeIndex i idxs
  if o.indexList then
    let t := A.take s.alloc (b + 1) 1
    let s := { s with alloc := t.2 }
    if t.1.1 = 0 then (false, s, ino)
    else if o.newIndexBuffer && o.lowerIndexWrite then
      let lower := all.take (all.length / 2)
      let upper := all.drop (all.length / 2)
      let s := writeImage s b (encode image (.index max 1 generation lower))
      if o.upperIndexWrite then
        let s := writeImage s t.1.1 (encode zero (.index (blockMax m) 1 generation upper))
        match ino.root with
        | .index rootMax depth gen rootIdxs =>
          match insertIndexEntry rootMax rootIdxs ⟨(upper.head?.map Index.block).getD 0, t.1.1⟩ with
          | some rootIdxs =>
            (true, s, { ino with
              blocks := ino.blocks + sectors m
              root := .index rootMax depth gen rootIdxs })
          | none => (false, release A s t.1.1, ino)
        | .leaf _ _ _ => (false, release A s t.1.1, ino)
      else (false, release A s t.1.1, ino)
    else (false, release A s t.1.1, ino)
  else (false, s, ino)

/-- `ext4_extent_add_root_index`. -/
def addRootIndex (o : Outcomes) (s : Store α) (ino : Inode) (i : Index) : Bool × Store α × Inode :=
  match ino.root with
  | .leaf _ _ _ => (false, s, ino)
  | .index max depth generation idxs =>
    match insertIndexEntry max idxs i with
    | some idxs => (true, s, { ino with root := .index max depth generation idxs })
    | none =>
      if depth ≠ 1 then (false, s, ino)
      else
        let g := growRoot A o.growIndex s ino
        if g.1 then
          -- the root now has one entry, the node its entries moved to
          match g.2.2.root with
          | .index _ _ _ [j] =>
            if o.addBuffer && o.addRead then
              match readNode m g.2.1.blocks j.leaf with
              | some (.index max depth generation idxs) =>
                match insertIndexEntry max idxs i with
                | some idxs =>
                  if o.addWrite then
                    (true, writeImage g.2.1 j.leaf
                      (encode (g.2.1.blocks j.leaf) (.index max depth generation idxs)),
                      g.2.2)
                  else (false, g.2)
                | none => (false, g.2)
              | _ => (false, g.2)
            else (false, g.2)
          | _ => (false, g.2)
        else (false, g.2)

/-- A full leaf is halved: the upper half moves to a new block, whose key is returned. -/
def halveLeaf (o : Outcomes) (s : Store α) (b : ℕ) (image : Image) (max generation : ℕ)
    (all : List Extent) : Store α × Option Index :=
  if o.leafList then
    let t := A.take s.alloc (b + 1) 1
    let s := { s with alloc := t.2 }
    if t.1.1 = 0 then (s, none)
    else if o.newLeafBuffer && o.lowerLeafWrite then
      let lower := all.take (all.length / 2)
      let upper := all.drop (all.length / 2)
      let s := writeImage s b (encode image (.leaf max generation lower))
      if o.upperLeafWrite then
        (writeImage s t.1.1 (encode zero (.leaf (blockMax m) generation upper)),
          some ⟨(upper.head?.map Extent.block).getD 0, t.1.1⟩)
      else (release A s t.1.1, none)
    else (release A s t.1.1, none)
  else (s, none)

/-- `ext4_extent_split_leaf`. -/
def splitLeaf (o : Outcomes) (s : Store α) (ino : Inode) (b : ℕ) (image : Image)
    (max generation : ℕ) (exts : List Extent) (e : Extent) : Bool × Store α × Inode :=
  match halveLeaf A o s b image max generation (place e exts) with
  | (s, none) => (false, s, ino)
  | (s, some i) =>
    let r := addRootIndex A o s ino i
    if r.1 then (true, r.2.1, { r.2.2 with blocks := r.2.2.blocks + sectors m })
    else (false, release A r.2.1 i.leaf, r.2.2)

/-- The buffer and the leaf that a root of depth 1 leads to; a block that holds no leaf is taken
for an empty one. -/
def leafOrReset (m : Mount) (image : Image) : Image × (ℕ × ℕ × List Extent) :=
  match decode image with
  | some (.leaf max generation exts) =>
    if exts.length ≤ max ∧ max ≤ blockMax m then (image, max, generation, exts)
    else (zero, blockMax m, 0, [])
  | _ => (zero, blockMax m, 0, [])

/-- The key is lowered to the block when the block lies below it. -/
def lowerKey (logical : ℕ) (i : Index) : Index := { i with block := min i.block logical }

/-- A physical block that an entry may name. -/
def Addressable (b : ℕ) : Prop := b ≠ 0 ∧ b ≤ maxPhysBlock

instance (b : ℕ) : Decidable (Addressable b) := inferInstanceAs (Decidable (_ ∧ _))

/-- `ext4_extent_insert` below a root of depth 1. -/
def insertBelow1 (o : Outcomes) (s : Store α) (ino : Inode) (max generation : ℕ)
    (idxs : List Index) (e : Extent) : Bool × Store α × Inode :=
  match best e.block idxs with
  | none => (false, s, ino)
  | some (pre, i, post) =>
    let ino := { ino with root := .index max 1 generation (pre ++ lowerKey e.block i :: post) }
    if Addressable i.leaf ∧ o.leafBuffer ∧ o.leafRead ∧ Readable m i.leaf then
      let leaf := leafOrReset m (s.blocks i.leaf)
      match insertLeafEntry leaf.2.1 leaf.2.2.2 e with
      | .overlap => (false, s, ino)
      | .done exts =>
        if o.leafWrite then
          (true, writeImage s i.leaf (encode leaf.1 (.leaf leaf.2.1 leaf.2.2.1 exts)), ino)
        else (false, s, ino)
      | .full => splitLeaf A o s ino i.leaf leaf.1 leaf.2.1 leaf.2.2.1 leaf.2.2.2 e
    else (false, s, ino)

/-- A new leaf goes into the inner node `p`, which is split when it is full. -/
def addBelow2 (o : Outcomes) (s : Store α) (ino : Inode) (p : ℕ) (image : Image)
    (max generation : ℕ) (idxs : List Index) (i : Index) : Bool × Store α × Inode :=
  match insertIndexEntry max idxs i with
  | some idxs =>
    if o.addWrite then
      (true, writeImage s p (encode image (.index max 1 generation idxs)), ino)
    else (false, s, ino)
  | none => splitIndex A o s ino p image max generation idxs i

/-- The full leaf `b` below the inner node `p` is split; its new half goes into `p`. -/
def splitBelow2 (o : Outcomes) (s : Store α) (ino : Inode) (p : ℕ) (image : Image)
    (max generation : ℕ) (idxs : List Index) (b : ℕ) (leafImage : Image)
    (leafMax leafGeneration : ℕ) (exts : List Extent) (e : Extent) : Bool × Store α × Inode :=
  match halveLeaf A o s b leafImage leafMax leafGeneration (place e exts) with
  | (s, none) => (false, s, ino)
  | (s, some i) =>
    let r := addBelow2 A o s ino p image max generation idxs i
    if r.1 then (true, r.2.1, { r.2.2 with blocks := r.2.2.blocks + sectors m })
    else (false, release A r.2.1 i.leaf, r.2.2)

/-- `ext4_extent_insert` below a root of depth 2. -/
def insertBelow2 (o : Outcomes) (s : Store α) (ino : Inode) (rootMax rootGeneration : ℕ)
    (rootIdxs : List Index) (e : Extent) : Bool × Store α × Inode :=
  match best e.block rootIdxs with
  | none => (false, s, ino)
  | some (rootPre, p, rootPost) =>
    if Addressable p.leaf ∧ o.indexBuffer ∧ o.indexRead then
      match readNode m s.blocks p.leaf with
      | some (.index max 1 generation idxs) =>
        match best e.block idxs with
        | none => (false, s, ino)
        | some (pre, i, post) =>
          let idxs := pre ++ lowerKey e.block i :: post
          let rootIdxs := rootPre ++ lowerKey e.block p :: rootPost
          let ino := { ino with root := .index rootMax 2 rootGeneration rootIdxs }
          if Addressable i.leaf ∧ o.leafBuffer ∧ o.leafRead then
            match readNode m s.blocks i.leaf with
            | some (.leaf leafMax leafGeneration exts) =>
              match insertLeafEntry leafMax exts e with
              | .overlap => (false, s, ino)
              | .done exts =>
                if o.leafWrite then
                  let t := writeImage s i.leaf
                    (encode (s.blocks i.leaf) (.leaf leafMax leafGeneration exts))
                  if e.block < i.block then
                    if o.indexWrite then
                      (true, writeImage t p.leaf
                        (encode (s.blocks p.leaf) (.index max 1 generation idxs)), ino)
                    else (false, t, ino)
                  else (true, t, ino)
                else (false, s, ino)
              | .full => splitBelow2 A o s ino p.leaf (s.blocks p.leaf) max generation idxs
                  i.leaf (s.blocks i.leaf) leafMax leafGeneration exts e
            | _ => (false, s, ino)
          else (false, s, ino)
      | _ => (false, s, ino)
    else (false, s, ino)

/-- What `ext4_extent_insert` accepts. -/
def Insertable (e : Extent) : Prop :=
  0 < e.len ∧ e.len ≤ 0x7FFF ∧ e.start ≤ maxPhysBlock ∧ e.len - 1 ≤ maxPhysBlock - e.start

instance (e : Extent) : Decidable (Insertable e) := inferInstanceAs (Decidable (_ ∧ _ ∧ _ ∧ _))

/-- The part of `ext4_extent_insert` behind its label, with the number of times it may be
entered again. -/
def insertFrom (o : Outcomes) (e : Extent) : ℕ → Store α → Inode → Bool × Store α × Inode
  | retries, s, ino =>
    match ino.root with
    | .leaf max generation exts =>
      match insertLeafEntry max exts e with
      | .overlap => (false, s, ino)
      | .done exts => (true, s, { ino with root := .leaf max generation exts })
      | .full =>
        let g := growRoot A o.growLeaf s ino
        match g.1, retries with
        | true, retries + 1 => insertFrom o e retries g.2.1 g.2.2
        | _, _ => (false, g.2)
    | .index max depth generation idxs =>
      if depth = 1 then insertBelow1 A o s ino max generation idxs e
      else if depth = 2 then insertBelow2 A o s ino max generation idxs e
      else (false, s, ino)

/-- `ext4_extent_insert`: the run `e` is `(logical_block, len, phys_block)`. -/
def insert (o : Outcomes) (s : Store α) (ino : Inode) (e : Extent) : Bool × Store α × Inode :=
  if Insertable e then
    insertFrom A o e 1 s (if ino.extents then ino else initInode ino)
  else (false, s, ino)

/-! ## Removal

A removal that fails is not followed further, except that `ext4_extent_free_all` goes on when
`ext4_extent_free_node` fails.  `ok` says which node blocks can be read. -/

/-- Free a run of blocks one by one, up to the first failure. -/
def giveRun (a : α) (first : ℕ) : ℕ → Bool × α
  | 0 => (true, a)
  | n + 1 =>
    let r := giveRun a first n
    if r.1 then A.give r.2 (first + n) else r

/-- The test on the physical run; `len - 1` is computed in 64 bits. -/
def RunAddressable (start len : ℕ) : Prop :=
  Addressable start ∧ 0 < len ∧ len - 1 ≤ maxPhysBlock - start

instance (start len : ℕ) : Decidable (RunAddressable start len) :=
  inferInstanceAs (Decidable (_ ∧ _ ∧ _))

/-- `ext4_extent_free_node` on the entries of a leaf. -/
def freeExtents : List Extent → α → Bool × α
  | [], a => (true, a)
  | e :: exts, a =>
    if RunAddressable e.start e.masked then
      let r := giveRun A a e.start e.masked
      if r.1 then freeExtents exts r.2 else r
    else (false, a)

/-- The children of an inner node, given how one of them is freed. -/
def freeChildren (d : ℕ → Image) (ok : ℕ → Bool) (freeChild : Node → α → Bool × α) :
    List Index → α → Bool × α
  | [], a => (true, a)
  | i :: idxs, a =>
    if Addressable i.leaf ∧ ok i.leaf then
      match readNode m d i.leaf with
      | none => (false, a)
      | some node =>
        let r := freeChild node a
        if r.1 then
          let g := A.give r.2 i.leaf
          if g.1 then freeChildren d ok freeChild idxs g.2 else g
        else r
    else (false, a)

/-- `ext4_extent_free_node`, with a bound on the levels below the node. -/
def freeNode (d : ℕ → Image) (ok : ℕ → Bool) : ℕ → Node → α → Bool × α
  | _, .leaf _ _ exts, a => freeExtents A exts a
  | 0, .index _ _ _ _, a => (false, a)
  | levels + 1, .index _ _ _ idxs, a => freeChildren A d ok (freeNode d ok levels) idxs a

/-- `ext4_extent_free_all`. -/
def freeAll (ok : ℕ → Bool) (s : Store α) (ino : Inode) : Store α × Inode :=
  ({ s with alloc := (freeNode A s.blocks ok ino.root.depth ino.root s.alloc).2 },
    { initInode ino with blocks := 0, size := 0 })

/-- `ext4_extent_unaccount`. -/
def unaccount (m : Mount) (sectorCount count : ℕ) : ℕ := sectorCount - count * sectors m

def keptLength (keep : ℕ) (e : Extent) : ℕ :=
  if keep ≤ e.block then 0
  else if keep < (e.block + e.masked) % 2 ^ 32 then keep - e.block
  else e.masked

/-- `ext4_extent_trim_node` on the entries of a leaf, with `i_blocks`. -/
def trimExtents (keep : ℕ) : List Extent → α → ℕ → Option (List Extent × α × ℕ)
  | [], a, n => some ([], a, n)
  | e :: exts, a, n =>
    let kept := keptLength keep e
    if kept = e.masked then
      (trimExtents keep exts a n).map fun r => (e :: r.1, r.2)
    else if RunAddressable e.start e.masked then
      let r := giveRun A a (e.start + kept) (e.masked - kept)
      if r.1 then
        (trimExtents keep exts r.2 (unaccount m n (e.masked - kept))).map fun t =>
          if kept = 0 then t else ({ e with len := e.len / 0x8000 * 0x8000 + kept } :: t.1, t.2)
      else none
    else none

/-- The children of an inner node, given how one of them is trimmed. -/
def trimChildren (ok : ℕ → Bool) (trimChild : Node → Store α → ℕ → Option (Node × Store α × ℕ)) :
    List Index → Store α → ℕ → Option (List Index × Store α × ℕ)
  | [], s, n => some ([], s, n)
  | i :: idxs, s, n =>
    if Addressable i.leaf ∧ ok i.leaf then
      match readNode m s.blocks i.leaf with
      | none => none
      | some node =>
        -- the child is trimmed in the buffer its block was read into
        let image := s.blocks i.leaf
        match trimChild node s n with
        | none => none
        | some (node, s, n) =>
          if node.entries = 0 then
            let g := A.give s.alloc i.leaf
            if g.1 then
              trimChildren ok trimChild idxs { s with alloc := g.2 } (unaccount m n 1)
            else none
          else
            (trimChildren ok trimChild idxs (writeImage s i.leaf (encode image node)) n).map
              fun r => ({ i with block := node.firstLogical } :: r.1, r.2)
    else none

/-- `ext4_extent_trim_node`, with a bound on the levels below the node. -/
def trimNode (ok : ℕ → Bool) (keep : ℕ) : ℕ → Node → Store α → ℕ → Option (Node × Store α × ℕ)
  | _, .leaf max generation exts, s, n =>
    (trimExtents A keep exts s.alloc n).map fun r =>
      (.leaf max generation r.1, { s with alloc := r.2.1 }, r.2.2)
  | 0, .index _ _ _ _, _, _ => none
  | levels + 1, .index max depth generation idxs, s, n =>
    (trimChildren A ok (trimNode ok keep levels) idxs s n).map fun r =>
      (.index max depth generation r.1, r.2)

/-- `ext4_extent_collapse_root`. -/
def collapseRoot (ok : ℕ → Bool) (s : Store α) (ino : Inode) : Option (Store α × Inode) :=
  match ino.root with
  | .index _ _ _ [i] =>
    if Addressable i.leaf ∧ ok i.leaf ∧ i.leaf < m.blocksCount then
      match readNode m s.blocks i.leaf with
      | none => some (s, ino)
      | some node =>
        if 4 < node.entries then some (s, ino)
        else
          let g := A.give s.alloc i.leaf
          if g.1 then
            some ({ s with alloc := g.2 },
              { ino with root := node.withMax 4, blocks := unaccount m ino.blocks 1 })
          else none
    else none
  | _ => some (s, ino)

/-- The bytes of a block behind `tail` are zeroed. -/
def clearTail (m : Mount) (tail : ℕ) (image : Image) : Image :=
  fun i => if tail ≤ i ∧ i < m.blockSize then 0 else image i

/-- The block that holds the new end of the file is cleared behind it. -/
def clearEnd (s : Store α) (root : Node) (newLen keep : ℕ) : Store α :=
  let b := getBlockNum m s.blocks root ((keep + 2 ^ 32 - 1) % 2 ^ 32)
  if newLen % m.blockSize = 0 ∨ b = 0 then s
  else writeImage s b (clearTail m (newLen % m.blockSize) (s.blocks b))

/-- `keep_blocks`, computed in 32 bits. -/
def keepBlocks (m : Mount) (newLen : ℕ) : ℕ := (newLen + m.blockSize - 1) % 2 ^ 32 / m.blockSize

/-- `ext4_extent_truncate`. -/
def truncate (ok : ℕ → Bool) (s : Store α) (ino : Inode) (newLen : ℕ) : Option (Store α × Inode) :=
  if ino.extents = false then none
  else if ino.size ≤ newLen then some (s, { ino with size := newLen })
  else if newLen = 0 then some (freeAll A ok s ino)
  else
    let keep := keepBlocks m newLen
    match trimNode A ok keep ino.root.depth ino.root
        (clearEnd (m := m) s ino.root newLen keep) ino.blocks with
    | none => none
    | some (root, s, n) =>
      let ino := { ino with root := root, blocks := n }
      if root.entries = 0 then some (s, { initInode ino with size := newLen })
      else (collapseRoot A ok s ino).map fun r => (r.1, { r.2 with size := newLen })

end

end AvoryOS.Ext4
