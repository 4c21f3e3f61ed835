import AvoryOS.Ext2.Block
import AvoryOS.Lib.Bitmap
import Mathlib.Algebra.BigOperators.Group.Finset.Basic

/-!
# The allocators

Blocks and inodes are marked in one bitmap per group.  The bitmaps are journaled; the free
counts of the groups and of the volume are kept in memory and written once per handle.

So a handle changes bitmaps in the running set and counters in place.  When it is dropped
the bitmaps return to what they were and the counters do not: `discard_consistent_iff` says
that they agree afterwards exactly when the handle gave back in every group as much as it
took.  When a commit fails, this is asked of the groups whose blocks had not gone home.

The free counts are natural numbers: a group has no more than eight times `block_size`
blocks, and no more inodes.
-/

namespace AvoryOS.Ext2

open Option Bytes Device Ext3 Bitmap Function List WrappedLog

structure Geometry where
  firstDataBlock : ℕ
  blocksPerGroup : ℕ
  inodesPerGroup : ℕ
  groupsCount : ℕ
  blockBitmap : ℕ → ℕ
  inodeBitmap : ℕ → ℕ
  /-- `EXT4_FEATURE_INCOMPAT_EXTENTS`. -/
  extents : Bool
  /-- `bgdt_desc_size`. -/
  descSize : ℕ
  /-- The free blocks and inodes of a group, as a descriptor block holds them. -/
  counts : Image → ℕ → ℕ × ℕ

/-- The mounted filesystem: the volume and the counters in memory. -/
structure Fs where
  vol : Vol
  /-- The free counts of the group descriptors. -/
  freeBlocks : ℕ → ℕ
  freeInodes : ℕ → ℕ
  /-- `free_blocks_count` of the mount. -/
  totalBlocks : ℕ
  /-- `s_free_inodes_count`. -/
  totalInodes : ℕ
  metadataDirty : Bool
  /-- `bgdt_all_dirty`. -/
  allDirty : Bool
  /-- `dirty_bgd_blocks`. -/
  dirty : List ℕ

/-- `EXT2_DIRTY_BGD_MAX`. -/
def dirtyMax : ℕ := 64

/-- `ext2_mark_group_dirty`. -/
def markGroupDirty (m : Mount) (g : Geometry) (fs : Fs) (group : ℕ) : Fs :=
  let block := group * g.descSize / m.blockSize
  if g.groupsCount ≤ group then fs
  else if fs.allDirty || fs.dirty.contains block then { fs with metadataDirty := true }
  else if fs.dirty.length < dirtyMax then
    { fs with metadataDirty := true, dirty := fs.dirty ++ [block] }
  else { fs with metadataDirty := true, allDirty := true }

/-! ## Blocks -/

/-- Extent maps address 48 bits of block numbers, the older maps 32. -/
def allocLimit (m : Mount) (g : Geometry) (large : Bool) : ℕ :=
  if large && g.extents then min m.blocksCount (2 ^ 48) else min m.blocksCount (2 ^ 32)

def groupStart (g : Geometry) (group : ℕ) : ℕ := g.firstDataBlock + group * g.blocksPerGroup

/-- The first free bit from `startBit` on, else before it, with the end of its window. -/
def findWindow (bitmap : Image) (startBit n : ℕ) : Option (ℕ × ℕ) :=
  match findFree bitmap startBit n with
  | some b => some (b, n)
  | none => (findFree bitmap 0 (min startBit n)).map (·, min startBit n)

def invalidateRun (cache : ℕ → Slot) (first : ℕ) : ℕ → ℕ → Slot
  | 0 => cache
  | n + 1 => invalidate (invalidateRun cache first n) (first + n)

/-- `ext2_alloc_in_group`: the first block and the length of the run, 0 for none. -/
def allocInGroup (m : Mount) (g : Geometry) (got : ℕ → Bool) (maxBlocks : ℕ) (large : Bool)
    (fs : Fs) (group startBit : ℕ) : (ℕ × ℕ) × Fs :=
  let r := readBlock m got fs.vol (g.blockBitmap group)
  match r.1 with
  | none => ((0, 0), { fs with vol := r.2 })
  | some bitmap =>
    let limit := allocLimit m g large
    if 8 * m.blockSize < g.blocksPerGroup ∨ limit ≤ groupStart g group then
      ((0, 0), { fs with vol := r.2 })
    else match findWindow bitmap startBit (min g.blocksPerGroup (limit - groupStart g group)) with
      | none => ((0, 0), { fs with vol := r.2 })
      | some (b, hi) =>
        let count := runLength bitmap hi maxBlocks b
        let j := journal m got r.2 (g.blockBitmap group) (setRun bitmap b count)
        if j.1 then
          ((groupStart g group + b, count), markGroupDirty m g
            { fs with
              vol := { j.2 with
                cache := invalidateRun j.2.cache (groupStart g group + b) count }
              freeBlocks := update fs.freeBlocks group (fs.freeBlocks group - count)
              totalBlocks := fs.totalBlocks - count } group)
        else ((0, 0), { fs with vol := j.2 })

/-- One pass over the groups, with the bit to start from in each: those whose free count is 0
when `empty` is set, those whose count is not 0 otherwise. -/
def tryGroups (m : Mount) (g : Geometry) (got : ℕ → Bool) (maxBlocks : ℕ) (large empty : Bool) :
    List (ℕ × ℕ) → Fs → (ℕ × ℕ) × Fs
  | [], fs => ((0, 0), fs)
  | (group, bit) :: rest, fs =>
    if (fs.freeBlocks group == 0) != empty then tryGroups m g got maxBlocks large empty rest fs
    else
      let r := allocInGroup m g got maxBlocks large fs group bit
      if r.1.1 = 0 then tryGroups m g got maxBlocks large empty rest r.2 else r

/-- The group and the bit an allocation goal names. -/
def goalBit (m : Mount) (g : Geometry) (goal : ℕ) : ℕ × ℕ :=
  let rel := goal - g.firstDataBlock
  if g.firstDataBlock ≤ goal ∧ goal < m.blocksCount ∧ rel / g.blocksPerGroup < g.groupsCount then
    (rel / g.blocksPerGroup, rel % g.blocksPerGroup)
  else (0, 0)

/-- `ext2_alloc_run_hint_limit` inside an open handle. -/
def allocRun (m : Mount) (g : Geometry) (got : ℕ → Bool) (goal maxBlocks : ℕ) (large : Bool)
    (fs : Fs) : (ℕ × ℕ) × Fs :=
  if maxBlocks = 0 ∨ g.groupsCount = 0 then ((0, 0), fs)
  else
    let start := goalBit m g goal
    let fast := (List.range g.groupsCount).map fun i =>
      ((start.1 + i) % g.groupsCount, if i = 0 then start.2 else 0)
    let r := tryGroups m g got maxBlocks large false fast fs
    if r.1.1 = 0 then
      tryGroups m g got maxBlocks large true ((List.range g.groupsCount).map (·, 0)) r.2
    else r

/-- `ext2_free_block`. -/
def freeBlock (m : Mount) (g : Geometry) (got : ℕ → Bool) (fs : Fs) (b : ℕ) : Bool × Fs :=
  let group := (b - g.firstDataBlock) / g.blocksPerGroup
  let index := (b - g.firstDataBlock) % g.blocksPerGroup
  if m.readOnly ∨ b = 0 ∨ b < g.firstDataBlock ∨ m.blocksCount ≤ b ∨ g.groupsCount ≤ group then
    (false, fs)
  else
    let r := readBlock m got fs.vol (g.blockBitmap group)
    let j := journal m got r.2 (g.blockBitmap group) (clear (r.1.getD zero) index)
    (true, markGroupDirty m g
      { fs with
        vol := { j.2 with cache := invalidate j.2.cache b }
        freeBlocks := update fs.freeBlocks group (fs.freeBlocks group + 1)
        totalBlocks := fs.totalBlocks + 1 } group)

/-! ## Inodes -/

/-- `ext2_alloc_inode` inside an open handle, over the groups that are left: the inode
number, 0 for none. -/
def allocInodeIn (m : Mount) (g : Geometry) (got : ℕ → Bool) : List ℕ → Fs → ℕ × Fs
  | [], fs => (0, fs)
  | group :: rest, fs =>
    if fs.freeInodes group = 0 then allocInodeIn m g got rest fs
    else
      let r := readBlock m got fs.vol (g.inodeBitmap group)
      let bitmap := r.1.getD zero
      match findFree bitmap 0 g.inodesPerGroup with
      | none => allocInodeIn m g got rest { fs with vol := r.2 }
      | some i =>
        let j := journal m got r.2 (g.inodeBitmap group) (Bitmap.set bitmap i)
        (group * g.inodesPerGroup + i + 1, markGroupDirty m g
          { fs with
            vol := j.2
            freeInodes := update fs.freeInodes group (fs.freeInodes group - 1)
            totalInodes := fs.totalInodes - 1 } group)

def allocInode (m : Mount) (g : Geometry) (got : ℕ → Bool) (fs : Fs) : ℕ × Fs :=
  if m.readOnly then (0, fs) else allocInodeIn m g got (List.range g.groupsCount) fs

/-- `ext2_free_inode`. -/
def freeInode (m : Mount) (g : Geometry) (got : ℕ → Bool) (fs : Fs) (i : ℕ) : Bool × Fs :=
  let group := (i - 1) / g.inodesPerGroup
  let index := (i - 1) % g.inodesPerGroup
  if m.readOnly ∨ i = 0 ∨ g.groupsCount ≤ group then (false, fs)
  else
    let r := readBlock m got fs.vol (g.inodeBitmap group)
    let j := journal m got r.2 (g.inodeBitmap group) (clear (r.1.getD zero) index)
    (true, markGroupDirty m g
      { fs with
        vol := j.2
        freeInodes := update fs.freeInodes group (fs.freeInodes group + 1)
        totalInodes := fs.totalInodes + 1 } group)

/-! ## Writing the counters back -/

/-- Journal blocks one by one, up to the first failure. -/
def journalAll (m : Mount) (got : ℕ → Bool) : Vol → List (ℕ × Image) → Bool × Vol
  | v, [] => (true, v)
  | v, w :: ws =>
    let r := journal m got v w.1 w.2
    if r.1 then journalAll m got r.2 ws else r

def descBlocks (m : Mount) (g : Geometry) : ℕ :=
  (g.groupsCount * g.descSize + m.blockSize - 1) / m.blockSize

/-- `ext2_flush_metadata`.  `desc` and `super` are the images that the counters are encoded
in. -/
def flushMetadata (m : Mount) (g : Geometry) (got : ℕ → Bool) (desc : ℕ → Image) (super : Image)
    (fs : Fs) : Bool × Fs :=
  if m.readOnly || !fs.metadataDirty then (true, fs)
  else
    let blocks := if fs.allDirty then List.range (descBlocks m g) else fs.dirty
    let r := journalAll m got fs.vol (blocks.map fun i => (g.firstDataBlock + 1 + i, desc i))
    let s := if r.1 then
        let sb := 1024 / m.blockSize
        journal m got (if sb = 0 then r.2 else (readBlock m got r.2 sb).2) sb super
      else r
    (s.1, { fs with vol := s.2, metadataDirty := !s.1, allDirty := !s.1, dirty := [] })

/-- The write-back at the outermost stop, which a failed handle skips. -/
def flushAtStop (m : Mount) (g : Geometry) (got : ℕ → Bool) (desc : ℕ → Image) (super : Image)
    (fs : Fs) : Bool × Fs :=
  if fs.vol.store.ioFailed then (false, fs) else flushMetadata m g got desc super fs

/-! ## An open handle -/

def IsBitmap (g : Geometry) (b : ℕ) : Prop :=
  ∃ i < g.groupsCount, b = g.blockBitmap i ∨ b = g.inodeBitmap i

/-- Only the allocator writes the bitmaps and the descriptors. -/
def Reserved (m : Mount) (g : Geometry) (b : ℕ) : Prop :=
  IsBitmap g b ∨ ∃ i < descBlocks m g, b = g.firstDataBlock + 1 + i

/-- A view of the store that an open handle leaves alone: `settledView`, or the device. -/
def Kept (keep : Store → ℕ → Image) : Prop :=
  ∀ s s' : Store, ∀ b, s'.closed = s.closed → s'.disk b = s.disk b → keep s' b = keep s b

theorem kept_settledView : Kept settledView := by
  intro s s' b hclosed hdisk
  rw [settledView, settledView, hclosed, hdisk]

theorem kept_disk : Kept Store.disk := fun _ _ _ _ hdisk => hdisk

/-- The volume while a handle is open: the reserved blocks behind it do not change. -/
structure InHandle (m : Mount) (g : Geometry) (keep : Store → ℕ → Image) (v0 v : Vol) :
    Prop where
  active : v.active = true
  cache : CacheOk v.cache v.store.disk
  nodup : (v.store.running.map Prod.fst).Nodup
  keep : ∀ b, Reserved m g b → keep v.store b = keep v0.store b

variable {m : Mount} {b : ℕ}

theorem nodup_journalBlock {unchanged : Bool} {s : Store} {image : Image}
    (h : (s.running.map Prod.fst).Nodup) :
    ((journalBlock m unchanged s b image).2.running.map Prod.fst).Nodup := by
  rcases journalBlock_cases m unchanged s b image with
    ⟨ioFailed, heq⟩ | ⟨-, heq⟩ | ⟨-, -, -, heq⟩ | ⟨-, hrun, -, -, heq⟩ <;> rw [heq]
  · exact h
  · simpa using h
  · exact h
  rw [staged_eq_false] at hrun
  rw [map_append]
  exact h.append (nodup_singleton _) (disjoint_singleton.mpr hrun)

namespace InHandle

variable {g : Geometry} {keep : Store → ℕ → Image} {v0 v : Vol} (got : ℕ → Bool)

section

variable (h : InHandle m g keep v0 v)
include h

theorem read (b : ℕ) : InHandle m g keep v0 (readBlock m got v b).2 := by
  obtain ⟨hstore, hactive, hcache⟩ := readBlock_vol h.cache got b
  refine ⟨hactive.trans h.active, ?_, ?_, ?_⟩
  · rw [hstore]
    exact hcache
  · rw [hstore]
    exact h.nodup
  · rw [hstore]
    exact h.keep

theorem view_read (b x : ℕ) : view (readBlock m got v b).2.store x = view v.store x := by
  rw [(readBlock_vol h.cache got b).1]

theorem of_cache {cache : ℕ → Slot}
    (hcache : CacheOk cache v.store.disk) : InHandle m g keep v0 { v with cache := cache } :=
  { h with cache := hcache }

theorem journal_spec (b : ℕ) (image : Image) : JournalSpec m v b image
      ((journal m got v b image).1, (journal m got v b image).2.store) := by
  rw [journal]
  split
  · exact ⟨rfl, rfl, fun _ _ => rfl, fun _ => rfl, Bool.noConfusion⟩
  · rw [if_pos h.active]
    exact journalBlock_spec h.cache image

theorem view_journal_other {x : ℕ} (image : Image) (hx : x ≠ b) :
    view (journal m got v b image).2.store x = view v.store x := by
  have hspec := h.journal_spec (m := m) got b image
  rw [view, view, hspec.other x hx, settledView, settledView, hspec.closed, hspec.disk]

theorem view_journal_failed {image : Image} (hfail : (journal m got v b image).1 = false) (x : ℕ) :
    view (journal m got v b image).2.store x = view v.store x := by
  have hspec := h.journal_spec (m := m) got b image
  rw [view, view, hspec.failed hfail, settledView, settledView, hspec.closed, hspec.disk]

end

theorem journal (hkeep : Kept keep) (h : InHandle m g keep v0 v) (b : ℕ) (image : Image) :
    InHandle m g keep v0 (journal m got v b image).2 := by
  have hspec := h.journal_spec (m := m) got b image
  have hvol : (Ext2.journal m got v b image).2.active = v.active ∧
      (Ext2.journal m got v b image).2.cache = v.cache := by
    rw [Ext2.journal]
    split
    · exact ⟨rfl, rfl⟩
    · rw [if_pos h.active]
      exact ⟨rfl, rfl⟩
  refine ⟨hvol.1.trans h.active, ?_, ?_, ?_⟩
  · rw [hvol.2, hspec.disk]
    exact h.cache
  · rw [Ext2.journal]
    split
    · exact h.nodup
    · rw [if_pos h.active]
      exact nodup_journalBlock h.nodup
  · intro x hx
    exact (hkeep _ _ x hspec.closed (congrFun hspec.disk x)).trans (h.keep x hx)

theorem putBlock (hkeep : Kept keep) (h : InHandle m g keep v0 v) (hb : ¬ Reserved m g b)
    (image : Image) : InHandle m g keep v0 (putBlock got v b image) := by
  refine ⟨h.active, h.cache.publish got b image, h.nodup, ?_⟩
  intro x hx
  have hxb : x ≠ b := fun heq => hb (heq ▸ hx)
  have hdisk : (Ext2.putBlock got v b image).store.disk x = v.store.disk x := update_of_ne hxb _ _
  exact (hkeep v.store (Ext2.putBlock got v b image).store x rfl hdisk).trans (h.keep x hx)

end InHandle

theorem CacheOk.invalidateRun {cache : ℕ → Slot} {d : Disk} (h : CacheOk cache d) (first n : ℕ) :
    CacheOk (invalidateRun cache first n) d := by
  induction n with
  | zero => exact h
  | succ n ih => exact ih.invalidate (first + n)

/-! ## What a handle took and gave back -/

def groupSize (m : Mount) (g : Geometry) (group : ℕ) : ℕ :=
  min g.blocksPerGroup (m.blocksCount - groupStart g group)

def descBlock (m : Mount) (g : Geometry) (group : ℕ) : ℕ :=
  g.firstDataBlock + 1 + group * g.descSize / m.blockSize

/-- The bitmaps and the descriptors are distinct blocks of the volume, outside the log. -/
structure Layout (m : Mount) (journalBlocks : ℕ) (g : Geometry) : Prop where
  blocksPerGroup_pos : 0 < g.blocksPerGroup
  blocksPerGroup_le : g.blocksPerGroup ≤ 8 * m.blockSize
  blockBitmap : ∀ i < g.groupsCount, g.blockBitmap i ≠ 0
  inodeBitmap : ∀ i < g.groupsCount, g.inodeBitmap i ≠ 0
  reserved : ∀ b, Reserved m g b → b < m.blocksCount ∧ OutsideLog m journalBlocks b
  blockBitmap_inj : ∀ i < g.groupsCount, ∀ j < g.groupsCount,
    g.blockBitmap i = g.blockBitmap j → i = j
  disjoint : ∀ i < g.groupsCount, ∀ j < g.groupsCount, g.blockBitmap i ≠ g.inodeBitmap j
  superblock : ¬ IsBitmap g (1024 / m.blockSize)
  descriptors : ∀ i < descBlocks m g, ¬ IsBitmap g (g.firstDataBlock + 1 + i)
  descSize_pos : 0 < g.descSize

variable {g : Geometry} {group : ℕ}

theorem Layout.descriptor_lt {J : ℕ} (L : Layout m J g)
    (hg : group < g.groupsCount) : group * g.descSize / m.blockSize < descBlocks m g := by
  have hpos : 0 < m.blockSize := by
    have hle := L.blocksPerGroup_le
    have hgroup := L.blocksPerGroup_pos
    omega
  have hmul : (group + 1) * g.descSize ≤ g.groupsCount * g.descSize := Nat.mul_le_mul_right _ hg
  have hdesc := L.descSize_pos
  rw [descBlocks, Nat.lt_iff_add_one_le, Nat.le_div_iff_mul_le hpos, Nat.add_mul]
  have hdiv := Nat.div_mul_le_self (group * g.descSize) m.blockSize
  rw [Nat.add_mul] at hmul
  omega

theorem Layout.reserved_descBlock {J : ℕ} (L : Layout m J g) (hg : group < g.groupsCount) :
    Reserved m g (descBlock m g group) :=
  .inr ⟨_, L.descriptor_lt hg, rfl⟩

/-- What a handle has allocated and freed in each group. -/
structure Tally where
  allocBlocks : ℕ → ℕ
  freedBlocks : ℕ → ℕ
  allocInodes : ℕ → ℕ
  freedInodes : ℕ → ℕ

namespace Tally

def none : Tally := ⟨fun _ => 0, fun _ => 0, fun _ => 0, fun _ => 0⟩

def bump (f : ℕ → ℕ) (group n : ℕ) : ℕ → ℕ := update f group (f group + n)

@[simp] theorem bump_self (f : ℕ → ℕ) (group n : ℕ) : bump f group n group = f group + n :=
  update_self _ _ _

theorem bump_of_ne (f : ℕ → ℕ) {i : ℕ} (n : ℕ) (h : i ≠ group) : bump f group n i = f i :=
  update_of_ne h _ _

def takeRun (g : Geometry) (T : Tally) (run : ℕ × ℕ) : Tally :=
  if run.1 = 0 then T
  else { T with
    allocBlocks := bump T.allocBlocks ((run.1 - g.firstDataBlock) / g.blocksPerGroup) run.2 }

/-- The release of this block succeeded or not. -/
def giveBlock (g : Geometry) (T : Tally) (b : ℕ) (ok : Bool) : Tally :=
  if ok then { T with
    freedBlocks := bump T.freedBlocks ((b - g.firstDataBlock) / g.blocksPerGroup) 1 }
  else T

def takeInode (g : Geometry) (T : Tally) (i : ℕ) : Tally :=
  if i = 0 then T
  else { T with allocInodes := bump T.allocInodes ((i - 1) / g.inodesPerGroup) 1 }

/-- The release of this inode succeeded or not. -/
def giveInode (g : Geometry) (T : Tally) (i : ℕ) (ok : Bool) : Tally :=
  if ok then { T with freedInodes := bump T.freedInodes ((i - 1) / g.inodesPerGroup) 1 } else T

/-- Every group got back what was taken from it. -/
def Balanced (g : Geometry) (T : Tally) : Prop :=
  ∀ i < g.groupsCount, T.allocBlocks i = T.freedBlocks i ∧ T.allocInodes i = T.freedInodes i

end Tally

/-- The state of a handle that started with the counters of `fs0`. -/
structure Progress (m : Mount) (g : Geometry) (keep : Store → ℕ → Image) (fs0 : Fs) (T : Tally)
    (fs : Fs) : Prop where
  handle : InHandle m g keep fs0.vol fs.vol
  blocks : ∀ i, fs.freeBlocks i + T.allocBlocks i = fs0.freeBlocks i + T.freedBlocks i
  inodes : ∀ i, fs.freeInodes i + T.allocInodes i = fs0.freeInodes i + T.freedInodes i
  totalBlocks : fs.totalBlocks = ∑ i ∈ Finset.range g.groupsCount, fs.freeBlocks i
  totalInodes : fs.totalInodes = ∑ i ∈ Finset.range g.groupsCount, fs.freeInodes i
  /-- A group counts every block that its bitmap shows free. -/
  enough : ∀ i < g.groupsCount,
    freeCount (view fs.vol.store (g.blockBitmap i)) (groupSize m g i) ≤ fs.freeBlocks i
  zero : 0 < g.groupsCount → g.firstDataBlock = 0 →
    test (view fs.vol.store (g.blockBitmap 0)) 0 = true
  dirty : ∀ i ∈ fs.dirty, i < descBlocks m g

variable {n : ℕ}

theorem sum_update {x : ℕ} (f : ℕ → ℕ) (h : group < n) :
    ∑ i ∈ Finset.range n, update f group x i + f group = ∑ i ∈ Finset.range n, f i + x := by
  have hmem : group ∈ Finset.range n := Finset.mem_range.mpr h
  have hrest : ∑ i ∈ (Finset.range n).erase group, update f group x i =
      ∑ i ∈ (Finset.range n).erase group, f i := by
    apply Finset.sum_congr rfl
    intro i hi
    rw [update_of_ne (Finset.ne_of_mem_erase hi)]
  rw [← Finset.sum_erase_add _ _ hmem, ← Finset.sum_erase_add _ f hmem, update_self]
  omega

namespace Progress

variable {J : ℕ} {keep : Store → ℕ → Image} {fs0 fs : Fs} {T : Tally}

section

variable (h : Progress m g keep fs0 T fs)
include h

variable {v : Vol}

theorem of_vol (hv : InHandle m g keep fs0.vol v) (hview : ∀ i < g.groupsCount,
      view v.store (g.blockBitmap i) = view fs.vol.store (g.blockBitmap i)) :
    Progress m g keep fs0 T { fs with vol := v } := by
  refine ⟨hv, h.blocks, h.inodes, h.totalBlocks, h.totalInodes, ?_, ?_, h.dirty⟩
  · intro i hi
    rw [hview i hi]
    exact h.enough i hi
  · intro hpos hfirst
    rw [hview 0 hpos]
    exact h.zero hpos hfirst

theorem read (got : ℕ → Bool) (b : ℕ) :
    Progress m g keep fs0 T { fs with vol := (readBlock m got fs.vol b).2 } := by
  exact h.of_vol (h.handle.read got b) fun i _ => h.handle.view_read got b _

theorem markGroupDirty (L : Layout m J g) (group : ℕ) :
    Progress m g keep fs0 T (markGroupDirty m g fs group) := by
  rw [Ext2.markGroupDirty]
  split
  · exact h
  split
  · exact { h with }
  split
  · refine { h with dirty := ?_ }
    intro i hi
    rcases mem_append.mp hi with hi | hi
    · exact h.dirty i hi
    · rw [mem_singleton.mp hi]
      exact L.descriptor_lt (by omega)
  · exact { h with }

theorem setBlocks {count total : ℕ}
    {allocated freed : ℕ → ℕ} (hg : group < g.groupsCount) (hv : InHandle m g keep fs0.vol v)
    (hview : ∀ i < g.groupsCount, i ≠ group →
      view v.store (g.blockBitmap i) = view fs.vol.store (g.blockBitmap i))
    (hcount : count + allocated group = fs0.freeBlocks group + freed group)
    (hsame : ∀ i, i ≠ group → allocated i = T.allocBlocks i ∧ freed i = T.freedBlocks i)
    (htotal : total + fs.freeBlocks group = fs.totalBlocks + count)
    (henough : freeCount (view v.store (g.blockBitmap group)) (groupSize m g group) ≤ count)
    (hzero : group = 0 → g.firstDataBlock = 0 →
      test (view v.store (g.blockBitmap group)) 0 = true) :
    Progress m g keep fs0 { T with allocBlocks := allocated, freedBlocks := freed }
      { fs with
        vol := v
        freeBlocks := update fs.freeBlocks group count
        totalBlocks := total } := by
  refine ⟨hv, ?_, h.inodes, ?_, h.totalInodes, ?_, ?_, h.dirty⟩
  · intro i
    by_cases hi : i = group
    · subst hi
      simpa using hcount
    · obtain ⟨halloc, hfreed⟩ := hsame i hi
      simpa [hi, halloc, hfreed] using h.blocks i
  · have hsum := sum_update (x := count) fs.freeBlocks hg
    have hold := h.totalBlocks
    dsimp only
    omega
  · intro i hi
    by_cases hig : i = group
    · subst hig
      simpa using henough
    · simpa [hig, hview i hi hig] using h.enough i hi
  intro hpos hfirst
  by_cases hig : group = 0
  · subst hig
    exact hzero rfl hfirst
  · rw [hview 0 hpos (Ne.symm hig)]
    exact h.zero hpos hfirst

end

end Progress

/-! ## The allocators keep the state of the handle -/

theorem findWindow_eq_some {bitmap : Image} {startBit hi : ℕ}
    (h : findWindow bitmap startBit n = some (b, hi)) :
    b < hi ∧ hi ≤ n ∧ test bitmap b = false := by
  rw [findWindow] at h
  split at h
  · rename_i b' hfind
    obtain ⟨rfl, rfl⟩ : b' = b ∧ n = hi := by simpa using h
    obtain ⟨-, hlt, hfree⟩ := findFree_eq_some hfind
    exact ⟨hlt, le_rfl, hfree⟩
  · obtain ⟨b', hfind, hpair⟩ := map_eq_some_iff.mp h
    obtain ⟨rfl, rfl⟩ : b' = b ∧ min startBit n = hi := by simpa using hpair
    obtain ⟨-, hlt, hfree⟩ := findFree_eq_some hfind
    exact ⟨hlt, min_le_right _ _, hfree⟩

theorem allocLimit_le (m : Mount) (g : Geometry) (large : Bool) :
    allocLimit m g large ≤ m.blocksCount := by
  rw [allocLimit]
  split
  · exact min_le_left _ _
  · exact min_le_left _ _

theorem allocLimit_mono (m : Mount) (g : Geometry) (large : Bool) :
    allocLimit m g large ≤ allocLimit m g true := by
  rw [allocLimit, allocLimit]
  cases large <;> cases g.extents <;> simp

theorem groupSize_le (m : Mount) (g : Geometry) (group : ℕ) :
    groupSize m g group ≤ g.blocksPerGroup := min_le_left _ _

theorem block_sub_first (g : Geometry) (group b : ℕ) :
    groupStart g group + b - g.firstDataBlock = b + group * g.blocksPerGroup := by
  rw [groupStart]
  omega

theorem group_of_block (hb : b < g.blocksPerGroup) :
    (groupStart g group + b - g.firstDataBlock) / g.blocksPerGroup = group := by
  rw [block_sub_first, Nat.add_mul_div_right _ _ (by omega), Nat.div_eq_of_lt hb, Nat.zero_add]

theorem index_of_block (hb : b < g.blocksPerGroup) :
    (groupStart g group + b - g.firstDataBlock) % g.blocksPerGroup = b := by
  rw [block_sub_first, Nat.add_mul_mod_self_right, Nat.mod_eq_of_lt hb]

@[simp] theorem markGroupDirty_vol (fs : Fs) (group : ℕ) :
    (markGroupDirty m g fs group).vol = fs.vol := by
  rw [markGroupDirty]
  split
  · rfl
  split
  · rfl
  · split <;> rfl

section

variable {got : ℕ → Bool} {maxBlocks : ℕ} {large : Bool} {P : Fs → (ℕ × ℕ) × Fs → Prop}
  (hnone : ∀ fs, P fs ((0, 0), fs)) (hgroup : ∀ fs group bit, 0 < maxBlocks →
    group < g.groupsCount → P fs (allocInGroup m g got maxBlocks large fs group bit))
  (htrans : ∀ fs r r', P fs r → r.1.1 = 0 → P r.2 r' → P fs r')
include hnone hgroup htrans

/-- A pass is tries of groups, up to the first that succeeds. -/
theorem tryGroups_rule (hpos : 0 < maxBlocks) (empty : Bool) (groups : List (ℕ × ℕ))
    (hgroups : ∀ x ∈ groups, x.1 < g.groupsCount) (fs : Fs) :
    P fs (tryGroups m g got maxBlocks large empty groups fs) := by
  induction groups generalizing fs with
  | nil => exact hnone fs
  | cons x rest ih =>
    have hrest := ih fun y hy => hgroups y (mem_cons_of_mem _ hy)
    have hx := hgroup fs x.1 x.2 hpos (hgroups x mem_cons_self)
    rw [tryGroups]
    split
    · exact hrest fs
    dsimp only
    split
    · next hzero => exact htrans _ _ _ hx hzero (hrest _)
    · exact hx

theorem allocRun_rule (goal : ℕ) (fs : Fs) : P fs (allocRun m g got goal maxBlocks large fs) := by
  rw [allocRun]
  split
  · exact hnone fs
  have hpos : 0 < maxBlocks := by omega
  dsimp only
  have hfast := tryGroups_rule hnone hgroup htrans hpos false
    ((range g.groupsCount).map fun i =>
      (((goalBit m g goal).1 + i) % g.groupsCount, if i = 0 then (goalBit m g goal).2 else 0))
    (fun x hx => by
      obtain ⟨i, -, rfl⟩ := mem_map.mp hx
      exact Nat.mod_lt _ (by omega)) fs
  split
  · next hzero =>
    refine htrans _ _ _ hfast hzero (tryGroups_rule hnone hgroup htrans hpos true _ ?_ _)
    intro x hx
    obtain ⟨i, hi, rfl⟩ := mem_map.mp hx
    exact mem_range.mp hi
  · exact hfast

end

/-! ## Which blocks are free -/

/-- A block that can be handed out, and whose bit is clear. -/
def FreeBlock (m : Mount) (g : Geometry) (fs : Fs) (x : ℕ) : Prop :=
  g.firstDataBlock ≤ x ∧ x < allocLimit m g true ∧
    (x - g.firstDataBlock) / g.blocksPerGroup < g.groupsCount ∧
    test (view fs.vol.store (g.blockBitmap ((x - g.firstDataBlock) / g.blocksPerGroup)))
      ((x - g.firstDataBlock) % g.blocksPerGroup) = false

/-- What an allocation returns, and what it leaves free. -/
structure Took (m : Mount) (g : Geometry) (wanted : ℕ) (fs : Fs) (r : (ℕ × ℕ) × Fs) : Prop where
  count : r.1.1 ≠ 0 → 0 < r.1.2 ∧ r.1.2 ≤ wanted
  free : r.1.1 ≠ 0 → ∀ k < r.1.2, FreeBlock m g fs (r.1.1 + k) ∧ ¬ FreeBlock m g r.2 (r.1.1 + k)
  mono : ∀ x, FreeBlock m g r.2 x → FreeBlock m g fs x

theorem Took.none {wanted : ℕ} {fs fs' : Fs} (hview : ∀ i < g.groupsCount,
      view fs'.vol.store (g.blockBitmap i) = view fs.vol.store (g.blockBitmap i)) :
    Took m g wanted fs ((0, 0), fs') := by
  refine ⟨absurd rfl, absurd rfl, ?_⟩
  rintro x ⟨hfirst, hlimit, hcount, hfree⟩
  exact ⟨hfirst, hlimit, hcount, hview _ hcount ▸ hfree⟩

theorem Took.trans {wanted : ℕ} {fs : Fs} {r r' : (ℕ × ℕ) × Fs} (h : Took m g wanted fs r)
    (h' : Took m g wanted r.2 r') : Took m g wanted fs r' :=
  ⟨h'.count, fun hne k hk => (h'.free hne k hk).imp_left (h.mono _),
    fun x hx => h.mono x (h'.mono x hx)⟩

namespace Layout

variable {J : ℕ}

/-- A read of a reserved block gives the image that is staged for it, else its contents. -/
theorem read (L : Layout m J g) {v : Vol} (h : CacheOk v.cache v.store.disk) (got : ℕ → Bool)
    (hb : Reserved m g b) (hne : b ≠ 0) :
    (readBlock m got v b).1 = some (view v.store b) :=
  readBlock_eq h got (absurd · hne) (L.reserved b hb).1

theorem readBitmap (L : Layout m J g) {v : Vol} (h : CacheOk v.cache v.store.disk) (got : ℕ → Bool)
    (hg : group < g.groupsCount) :
    (readBlock m got v (g.blockBitmap group)).1 = some (view v.store (g.blockBitmap group)) :=
  L.read h got (.inl ⟨group, hg, .inl rfl⟩) (L.blockBitmap group hg)

variable {a b : Image}

theorem test_journal (L : Layout m J g) (got : ℕ → Bool) {keep : Store → ℕ → Image} {v0 v : Vol}
    (h : InHandle m g keep v0 v) {i : ℕ} (hg : group < g.groupsCount)
    (hok : (journal m got v (g.blockBitmap group) a).1 = true) (hi : i < g.blocksPerGroup) :
    test (view (journal m got v (g.blockBitmap group) a).2.store (g.blockBitmap group)) i =
      test a i := by
  have hle := L.blocksPerGroup_le
  exact test_congr ((h.journal_spec got _ a).image hok (absurd · (L.blockBitmap group hg)))
    (by omega)

theorem freeCount_eq (L : Layout m J g) (h : SameBytes m.blockSize a b) (group : ℕ) :
    freeCount a (groupSize m g group) = freeCount b (groupSize m g group) := by
  apply freeCount_congr
  intro i hi
  have hle := L.blocksPerGroup_le
  have hsize := groupSize_le m g group
  exact test_congr h (by omega)

theorem test_zero_eq (L : Layout m J g) (h : SameBytes m.blockSize a b) : test a 0 = test b 0 := by
  have hle := L.blocksPerGroup_le
  have hpos := L.blocksPerGroup_pos
  exact test_congr h (by omega)

end Layout

namespace Progress

variable {J : ℕ} {keep : Store → ℕ → Image} {fs0 fs : Fs} {T : Tally} (got : ℕ → Bool)

open Tally

section

variable (L : Layout m J g)
include L

section

variable (hkeep : Kept keep) (h : Progress m g keep fs0 T fs)
include hkeep h

variable {count : ℕ}

theorem takeBits {cache : ℕ → Slot} (hg : group < g.groupsCount)
    (hend : b + count ≤ groupSize m g group)
    (hfree : ∀ k < count, test (view fs.vol.store (g.blockBitmap group)) (b + k) = false)
    {j : Bool × Vol} (hj : j = journal m got fs.vol (g.blockBitmap group)
      (setRun (view fs.vol.store (g.blockBitmap group)) b count))
    (hok : j.1 = true) (hcache : CacheOk cache j.2.store.disk) :
    Progress m g keep fs0 { T with allocBlocks := bump T.allocBlocks group count }
      { fs with
        vol := { j.2 with cache := cache }
        freeBlocks := update fs.freeBlocks group (fs.freeBlocks group - count)
        totalBlocks := fs.totalBlocks - count } := by
  subst hj
  have hset := freeCount_setRun hend hfree
  have henough := h.enough group hg
  have himage := (h.handle.journal_spec got (g.blockBitmap group)
    (setRun (view fs.vol.store (g.blockBitmap group)) b count)).image hok
    (absurd · (L.blockBitmap group hg))
  have hsum := sum_update (x := fs.freeBlocks group - count) fs.freeBlocks hg
  have htotal := h.totalBlocks
  refine h.setBlocks hg ((h.handle.journal got hkeep _ _).of_cache hcache) ?_ ?_ ?_ ?_ ?_ ?_
  · intro i hi hne
    exact h.handle.view_journal_other got _ fun heq => hne (L.blockBitmap_inj i hi group hg heq)
  · have hold := h.blocks group
    rw [bump_self]
    omega
  · exact fun i hi => ⟨bump_of_ne _ _ hi, rfl⟩
  · omega
  · rw [L.freeCount_eq himage]
    omega
  intro hzero hfirst
  subst hzero
  rw [L.test_zero_eq himage, test_setRun, h.zero hg hfirst, Bool.or_true]

omit hkeep in
/-- A new bitmap of the group leaves what it marks as free, if that was free before. -/
theorem free_of_journal {fs' : Fs} {a : Image} {x : ℕ} (hg : group < g.groupsCount)
    (hvol : fs'.vol.store = (journal m got (readBlock m got fs.vol (g.blockBitmap group)).2
      (g.blockBitmap group) a).2.store)
    (hbit : (x - g.firstDataBlock) / g.blocksPerGroup = group →
      test a ((x - g.firstDataBlock) % g.blocksPerGroup) = false →
      test (view fs.vol.store (g.blockBitmap group))
        ((x - g.firstDataBlock) % g.blocksPerGroup) = false)
    (hx : FreeBlock m g fs' x) : FreeBlock m g fs x := by
  have hread := h.read got (g.blockBitmap group)
  have hview := h.handle.view_read (m := m) got (g.blockBitmap group)
  obtain ⟨hfirst, hlimit, hcount, hfree⟩ := hx
  refine ⟨hfirst, hlimit, hcount, ?_⟩
  rw [hvol] at hfree
  by_cases hgx : (x - g.firstDataBlock) / g.blocksPerGroup = group
  swap
  · rwa [hread.handle.view_journal_other got _ fun heq =>
      hgx (L.blockBitmap_inj _ hcount group hg heq), hview] at hfree
  rw [hgx] at hfree ⊢
  cases hok : (journal m got (readBlock m got fs.vol (g.blockBitmap group)).2
      (g.blockBitmap group) a).1 with
  | false => rwa [hread.handle.view_journal_failed got hok, hview] at hfree
  | true =>
    rw [L.test_journal got hread.handle hg hok (Nat.mod_lt _ L.blocksPerGroup_pos)] at hfree
    exact hbit hgx hfree

theorem allocInGroup {maxBlocks : ℕ} (hpos : 0 < maxBlocks) (large : Bool) (startBit : ℕ)
    (hg : group < g.groupsCount) :
    Progress m g keep fs0 (T.takeRun g (allocInGroup m g got maxBlocks large fs group startBit).1)
      (allocInGroup m g got maxBlocks large fs group startBit).2 ∧
        Took m g maxBlocks fs (allocInGroup m g got maxBlocks large fs group startBit) := by
  have hread := h.read got (g.blockBitmap group)
  have hview := h.handle.view_read (m := m) got (g.blockBitmap group)
  rw [Ext2.allocInGroup, L.readBitmap h.handle.cache got hg]
  dsimp only
  split
  · exact ⟨hread, .none fun i _ => hview _⟩
  split
  · exact ⟨hread, .none fun i _ => hview _⟩
  rename_i b hi hwindow
  obtain ⟨hb, hhi, hfree⟩ := findWindow_eq_some hwindow
  set bitmap := view fs.vol.store (g.blockBitmap group) with hbitmap
  have hbits : ∀ k < runLength bitmap hi maxBlocks b, b + k < hi ∧ test bitmap (b + k) = false :=
    fun k hk => test_runLength hfree hb hk
  have hsize : hi ≤ groupSize m g group := by
    have hle := allocLimit_le m g large
    rw [groupSize]
    omega
  have hlast := (hbits (runLength bitmap hi maxBlocks b - 1)
    (Nat.sub_lt (Nat.succ_pos _) Nat.one_pos)).1
  split
  swap
  · rename_i hfail
    have hsame := hread.handle.view_journal_failed got (by simpa using hfail)
    exact ⟨hread.of_vol (hread.handle.journal got hkeep _ _) fun i _ => hsame _,
      .none fun i _ => (hsame _).trans (hview _)⟩
  rename_i hok
  -- block 0 has its bit set, so the run starts at another block
  have hne : groupStart g group + b ≠ 0 := by
    intro hzero
    obtain ⟨hstart, rfl⟩ := Nat.add_eq_zero_iff.mp hzero
    obtain ⟨hfirst, hmul⟩ := Nat.add_eq_zero_iff.mp hstart
    obtain rfl : group = 0 := (Nat.mul_eq_zero.mp hmul).resolve_right (by omega)
    rw [h.zero hg hfirst] at hfree
    exact Bool.noConfusion hfree
  have hend : b + runLength bitmap hi maxBlocks b ≤ groupSize m g group := by omega
  refine ⟨?_, fun _ => ⟨Nat.succ_pos _, runLength_le hpos⟩, fun _ k hk => ?_, fun x hx => ?_⟩
  · rw [takeRun, if_neg hne, group_of_block (by omega)]
    refine markGroupDirty ?_ L group
    refine hread.takeBits got L hkeep hg hend ?_ ?_ hok (CacheOk.invalidateRun ?_ _ _)
    · intro k hk
      rw [hview]
      exact (hbits k hk).2
    · rw [hview]
    · exact (hread.handle.journal got hkeep _ _).cache
  · obtain ⟨hlt, hclear⟩ := hbits k hk
    have hlimit := allocLimit_mono m g large
    have hindex : b + k < g.blocksPerGroup := by omega
    rw [FreeBlock, FreeBlock, Nat.add_assoc, group_of_block hindex, index_of_block hindex,
      markGroupDirty_vol, L.test_journal got hread.handle hg hok hindex, test_setRun,
      decide_eq_true ⟨Nat.le_add_right b k, Nat.add_lt_add_left hk b⟩]
    exact ⟨⟨by rw [groupStart]; omega, by omega, hg, hclear⟩, fun h => Bool.noConfusion h.2.2.2⟩
  · refine h.free_of_journal got L hg (by rw [markGroupDirty_vol]) (fun _ hclear => ?_) hx
    rw [test_setRun] at hclear
    exact (Bool.or_eq_false_iff.mp hclear).2

omit L hkeep in
theorem free_bounds {x : ℕ} (hfree : FreeBlock m g fs x) :
    (x ≠ 0 ∧ x < m.blocksCount) ∧ x < 2 ^ 48 := by
  obtain ⟨hfirst, hlimit, hcount, hclear⟩ := hfree
  refine ⟨⟨?_, hlimit.trans_le (allocLimit_le m g true)⟩, ?_⟩
  · rintro rfl
    have hzero : g.firstDataBlock = 0 := by omega
    rw [Nat.zero_sub, Nat.zero_div] at hcount hclear
    rw [Nat.zero_mod, h.zero hcount hzero] at hclear
    exact Bool.noConfusion hclear
  · rw [allocLimit] at hlimit
    split at hlimit <;> omega

theorem allocRun (goal maxBlocks : ℕ) (large : Bool) :
    Progress m g keep fs0 (T.takeRun g (allocRun m g got goal maxBlocks large fs).1)
      (allocRun m g got goal maxBlocks large fs).2 ∧
        Took m g maxBlocks fs (allocRun m g got goal maxBlocks large fs) := by
  refine allocRun_rule (P := fun fs r => Progress m g keep fs0 T fs →
    Progress m g keep fs0 (T.takeRun g r.1) r.2 ∧ Took m g maxBlocks fs r) (fun fs h => ?_)
    (fun fs group bit hpos hg h => h.allocInGroup got L hkeep hpos large bit hg)
    (fun fs r r' hr hzero hr' h => ?_) goal fs h
  · exact ⟨h, .none fun _ _ => rfl⟩
  · obtain ⟨hprogress, htook⟩ := hr h
    rw [takeRun, if_pos hzero] at hprogress
    exact (hr' hprogress).imp_right htook.trans

omit hkeep in
/-- A release makes no other block free. -/
theorem free_freeBlock {x : ℕ} (hx : FreeBlock m g (freeBlock m g got fs b).2 x) :
    FreeBlock m g fs x ∨ x = b := by
  rw [Ext2.freeBlock] at hx
  dsimp only at hx
  split at hx
  · exact .inl hx
  rename_i hvalid
  by_cases hxb : x = b
  · exact .inr hxb
  generalize hgb : (b - g.firstDataBlock) / g.blocksPerGroup = group at hx hvalid
  generalize hib : (b - g.firstDataBlock) % g.blocksPerGroup = index at hx
  have hg : group < g.groupsCount := by omega
  rw [L.readBitmap h.handle.cache got hg, getD_some] at hx
  have hfirst := hx.1
  refine .inl (h.free_of_journal got L hg (by rw [markGroupDirty_vol]) (fun hgx hclear => ?_) hx)
  have hindex : (x - g.firstDataBlock) % g.blocksPerGroup ≠ index := by
    intro hix
    have h1 := Nat.div_add_mod (x - g.firstDataBlock) g.blocksPerGroup
    have h2 := Nat.div_add_mod (b - g.firstDataBlock) g.blocksPerGroup
    rw [hgx, hix, ← hgb, ← hib, h2] at h1
    omega
  rwa [test_clear, decide_eq_true hindex, Bool.true_and] at hclear

theorem freeBlock (b : ℕ) :
    Progress m g keep fs0 (T.giveBlock g b (freeBlock m g got fs b).1)
      (freeBlock m g got fs b).2 := by
  rw [Ext2.freeBlock]
  dsimp only
  split
  · exact h
  set group := (b - g.firstDataBlock) / g.blocksPerGroup with hgroup
  set index := (b - g.firstDataBlock) % g.blocksPerGroup with hindex
  have hg : group < g.groupsCount := by omega
  have hread := h.read got (g.blockBitmap group)
  rw [L.readBitmap h.handle.cache got hg, getD_some]
  have hview := h.handle.view_read (m := m) got (g.blockBitmap group) (g.blockBitmap group)
  set bitmap := view fs.vol.store (g.blockBitmap group) with hbitmap
  set j := journal m got (readBlock m got fs.vol (g.blockBitmap group)).2 (g.blockBitmap group)
    (clear bitmap index)
  -- the new image is the cleared one, or the old one when it could not be staged
  have himage : SameBytes m.blockSize (view j.2.store (g.blockBitmap group))
        (clear bitmap index) ∨ view j.2.store (g.blockBitmap group) = bitmap := by
    cases hok : j.1 with
    | true =>
      exact .inl ((hread.handle.journal_spec got _ _).image hok (absurd · (L.blockBitmap group hg)))
    | false => exact .inr ((hread.handle.view_journal_failed got hok _).trans hview)
  have hold : freeCount bitmap (groupSize m g group) ≤ fs.freeBlocks group := h.enough group hg
  have hblocks := h.blocks group
  have hcache : CacheOk (invalidate j.2.cache b) j.2.store.disk :=
    (hread.handle.journal got hkeep _ _).cache.invalidate b
  rw [giveBlock, ← hgroup]
  refine markGroupDirty ?_ L group
  refine hread.setBlocks hg ((hread.handle.journal got hkeep _ _).of_cache hcache) ?_ ?_ ?_ ?_ ?_ ?_
  · intro i hi hne
    exact hread.handle.view_journal_other got _ fun heq => hne (L.blockBitmap_inj i hi group hg heq)
  · rw [bump_self]
    omega
  · exact fun i hi => ⟨rfl, bump_of_ne _ _ hi⟩
  · dsimp only
    omega
  · rcases himage with himage | himage
    · have hle := freeCount_clear_le bitmap index (groupSize m g group)
      rw [L.freeCount_eq himage]
      omega
    · rw [himage]
      omega
  intro hzero hfirst
  have hbit : test bitmap 0 = true := by
    rw [hbitmap, hzero]
    exact h.zero (by omega) hfirst
  rcases himage with himage | himage
  · have hlt : b < g.blocksPerGroup := by
      have hdiv : b / g.blocksPerGroup = 0 := by rw [← hzero, hgroup, hfirst, Nat.sub_zero]
      exact (Nat.div_eq_zero_iff_lt L.blocksPerGroup_pos).mp hdiv
    have hne : 0 ≠ index := by
      rw [hindex, hfirst, Nat.sub_zero, Nat.mod_eq_of_lt hlt]
      omega
    rw [L.test_zero_eq himage, test_clear, hbit, decide_eq_true hne]
    rfl
  · rw [himage]
    exact hbit

theorem setInodes {total : ℕ} {allocated freed : ℕ → ℕ} (image : Image) (hg : group < g.groupsCount)
    (hcount : count + allocated group = fs0.freeInodes group + freed group)
    (hsame : ∀ i, i ≠ group → allocated i = T.allocInodes i ∧ freed i = T.freedInodes i)
    (htotal : total + fs.freeInodes group = fs.totalInodes + count) :
    Progress m g keep fs0 { T with allocInodes := allocated, freedInodes := freed }
      { fs with
        vol := (journal m got fs.vol (g.inodeBitmap group) image).2
        freeInodes := update fs.freeInodes group count
        totalInodes := total } := by
  have hjournal := h.of_vol (h.handle.journal (m := m) got hkeep (g.inodeBitmap group) image)
    fun i hi => h.handle.view_journal_other got image (L.disjoint i hi group hg)
  refine ⟨hjournal.handle, h.blocks, ?_, h.totalBlocks, ?_, hjournal.enough, hjournal.zero, h.dirty⟩
  · intro i
    by_cases hi : i = group
    · subst hi
      simpa using hcount
    · obtain ⟨halloc, hfreed⟩ := hsame i hi
      simpa [hi, halloc, hfreed] using h.inodes i
  · have hsum := sum_update (x := count) fs.freeInodes hg
    have hold := h.totalInodes
    dsimp only
    omega

omit h in
theorem allocInodeIn {groups : List ℕ} (hgroups : ∀ i ∈ groups, i < g.groupsCount) :
    ∀ {fs : Fs}, Progress m g keep fs0 T fs →
      Progress m g keep fs0 (T.takeInode g (allocInodeIn m g got groups fs).1)
        (allocInodeIn m g got groups fs).2 := by
  induction groups with
  | nil => intro fs h; exact h
  | cons group rest ih =>
    intro fs h
    have hmem : ∀ i ∈ rest, i < g.groupsCount := fun i hi => hgroups i (mem_cons_of_mem _ hi)
    have hg := hgroups group mem_cons_self
    have hread := h.read got (g.inodeBitmap group)
    rw [Ext2.allocInodeIn]
    split
    · exact ih hmem h
    dsimp only
    split
    · exact ih hmem hread
    rename_i i hfind
    obtain ⟨-, hi, -⟩ := findFree_eq_some hfind
    have hgroup : (group * g.inodesPerGroup + i + 1 - 1) / g.inodesPerGroup = group := by
      rw [Nat.add_sub_cancel, Nat.add_comm, Nat.add_mul_div_right _ _ (by omega),
        Nat.div_eq_of_lt hi, Nat.zero_add]
    have hinodes := h.inodes group
    have hsum := sum_update (x := fs.freeInodes group - 1) fs.freeInodes hg
    have htotal := h.totalInodes
    rw [takeInode, hgroup]
    refine markGroupDirty ?_ L group
    refine hread.setInodes got L hkeep _ hg ?_ ?_ ?_
    · rw [bump_self]
      omega
    · exact fun i hi => ⟨bump_of_ne _ _ hi, rfl⟩
    · dsimp only
      omega

theorem allocInode :
    Progress m g keep fs0 (T.takeInode g (allocInode m g got fs).1) (allocInode m g got fs).2 := by
  rw [Ext2.allocInode]
  split
  · exact h
  · exact allocInodeIn got L hkeep (fun i hi => mem_range.mp hi) h

theorem freeInode (i : ℕ) :
    Progress m g keep fs0 (T.giveInode g i (freeInode m g got fs i).1)
      (freeInode m g got fs i).2 := by
  rw [Ext2.freeInode]
  split
  · exact h
  have hg : (i - 1) / g.inodesPerGroup < g.groupsCount := by omega
  have hinodes := h.inodes ((i - 1) / g.inodesPerGroup)
  refine markGroupDirty ?_ L _
  refine (h.read got _).setInodes got L hkeep _ hg ?_ ?_ ?_
  · rw [bump_self]
    omega
  · exact fun j hj => ⟨rfl, bump_of_ne _ _ hj⟩
  · dsimp only
    omega

end

end

section

variable (hkeep : Kept keep) (h : Progress m g keep fs0 T fs)
include hkeep h

theorem journal (image : Image) (hb : ¬ IsBitmap g b) :
    Progress m g keep fs0 T { fs with vol := (journal m got fs.vol b image).2 } := by
  refine h.of_vol (h.handle.journal got hkeep b image) ?_
  intro i hi
  refine h.handle.view_journal_other got image fun heq => hb ?_
  rw [← heq]
  exact ⟨i, hi, .inl rfl⟩

omit h in
theorem journalAll {ws : List (ℕ × Image)}
    (hws : ∀ w ∈ ws, ¬ IsBitmap g w.1) : ∀ {v : Vol}, Progress m g keep fs0 T { fs with vol := v } →
      Progress m g keep fs0 T { fs with vol := (journalAll m got v ws).2 } := by
  induction ws with
  | nil => intro v h; exact h
  | cons w ws ih =>
    intro v h
    have hw := h.journal got hkeep w.2 (hws w mem_cons_self)
    rw [Ext2.journalAll]
    split
    · exact ih (fun u hu => hws u (mem_cons_of_mem _ hu)) hw
    · exact hw

theorem putBlock (image : Image) (hb : ¬ Reserved m g b) :
    Progress m g keep fs0 T { fs with vol := putBlock got fs.vol b image } := by
  refine h.of_vol (h.handle.putBlock got hkeep hb image) ?_
  intro i hi
  have hne : g.blockBitmap i ≠ b := fun heq => hb (heq ▸ .inl ⟨i, hi, .inl rfl⟩)
  simp [view, settledView, Ext2.putBlock, hne]

theorem flushMetadata (L : Layout m J g) (desc : ℕ → Image) (super : Image) :
    Progress m g keep fs0 T (flushMetadata m g got desc super fs).2 := by
  rw [Ext2.flushMetadata]
  split
  · exact h
  set blocks := if fs.allDirty then range (descBlocks m g) else fs.dirty with hblocks
  have hlt : ∀ i ∈ blocks, i < descBlocks m g := by
    intro i hi
    rw [hblocks] at hi
    split at hi
    · exact mem_range.mp hi
    · exact h.dirty i hi
  set r := Ext2.journalAll m got fs.vol (blocks.map fun i => (g.firstDataBlock + 1 + i, desc i))
  have hall : Progress m g keep fs0 T { fs with vol := r.2 } := by
    refine journalAll got hkeep ?_ h
    intro w hw
    obtain ⟨i, hi, rfl⟩ := mem_map.mp hw
    exact L.descriptors i (hlt i hi)
  have hsuper : Progress m g keep fs0 T { fs with vol := (if r.1 then
      Ext2.journal m got (if 1024 / m.blockSize = 0 then r.2
        else (readBlock m got r.2 (1024 / m.blockSize)).2) (1024 / m.blockSize) super
      else r).2 } := by
    split
    · split
      · exact hall.journal got hkeep super L.superblock
      · exact (hall.read got _).journal got hkeep super L.superblock
    · exact hall
  exact { hsuper with dirty := by simp }

theorem flushAtStop (L : Layout m J g) (desc : ℕ → Image) (super : Image) :
    Progress m g keep fs0 T (flushAtStop m g got desc super fs).2 := by
  rw [Ext2.flushAtStop]
  split
  · exact h
  · exact h.flushMetadata got hkeep L desc super

end

end Progress

/-! ## Handles that are dropped -/

/-- What an operation does inside its handle. -/
inductive Op
  | allocRun (goal maxBlocks : ℕ) (large : Bool)
  | freeBlock (b : ℕ)
  | allocInode
  | freeInode (i : ℕ)
  | journal (b : ℕ) (image : Image)
  | write (b : ℕ) (image : Image)

/-- Only the allocators write the reserved blocks. -/
def Op.Ok (m : Mount) (g : Geometry) : Op → Prop
  | .journal b _ => ¬ Reserved m g b
  | .write b _ => ¬ Reserved m g b
  | _ => True

/-- Perform one of them and record what it took or gave back. -/
def perform (m : Mount) (g : Geometry) (got : ℕ → Bool) (fs : Fs) (T : Tally) : Op → Fs × Tally
  | .allocRun goal maxBlocks large =>
    let r := allocRun m g got goal maxBlocks large fs
    (r.2, T.takeRun g r.1)
  | .freeBlock b =>
    let r := freeBlock m g got fs b
    (r.2, T.giveBlock g b r.1)
  | .allocInode =>
    let r := allocInode m g got fs
    (r.2, T.takeInode g r.1)
  | .freeInode i =>
    let r := freeInode m g got fs i
    (r.2, T.giveInode g i r.1)
  | .journal b image => ({ fs with vol := (journal m got fs.vol b image).2 }, T)
  | .write b image => ({ fs with vol := (writeBlock m got fs.vol b image).2 }, T)

/-- Operations one after another, each with the storage its cache fills can get. -/
def runOps (m : Mount) (g : Geometry) : List ((ℕ → Bool) × Op) → Fs → Tally → Fs × Tally
  | [], fs, T => (fs, T)
  | (got, op) :: ops, fs, T =>
    runOps m g ops (perform m g got fs T op).1 (perform m g got fs T op).2

def openHandle (fs : Fs) : Fs := { fs with vol := start fs.vol }

/-- The descriptor of the group is to be written back. -/
def Marked (m : Mount) (g : Geometry) (fs : Fs) (i : ℕ) : Prop :=
  fs.metadataDirty = true ∧ (fs.allDirty = true ∨ i * g.descSize / m.blockSize ∈ fs.dirty)

/-- The counters agree with the bitmaps as `ext2_read_block` returns them, and with the
descriptor of every group that is not marked dirty. -/
def Consistent (m : Mount) (g : Geometry) (fs : Fs) : Prop :=
  (∀ got : ℕ → Bool, ∀ i < g.groupsCount,
    (readBlock m got fs.vol (g.blockBitmap i)).1.map (freeCount · (groupSize m g i)) =
      some (fs.freeBlocks i) ∧
    (readBlock m got fs.vol (g.inodeBitmap i)).1.map (freeCount · g.inodesPerGroup) =
      some (fs.freeInodes i) ∧
    (Marked m g fs i ∨ (readBlock m got fs.vol (descBlock m g i)).1.map (g.counts · i) =
      some (fs.freeBlocks i, fs.freeInodes i))) ∧
  fs.totalBlocks = ∑ i ∈ Finset.range g.groupsCount, fs.freeBlocks i ∧
  fs.totalInodes = ∑ i ∈ Finset.range g.groupsCount, fs.freeInodes i

structure Sound (m : Mount) (g : Geometry) (fs : Fs) : Prop where
  consistent : Consistent m g fs
  written : ∀ i < g.groupsCount,
    g.counts (settledView fs.vol.store (descBlock m g i)) i = (fs.freeBlocks i, fs.freeInodes i)
  cache : CacheOk fs.vol.cache fs.vol.store.disk
  running : fs.vol.store.running = []
  /-- Block 0, which no group can hand out, is marked in use. -/
  zero : 0 < g.groupsCount → g.firstDataBlock = 0 →
    test (settledView fs.vol.store (g.blockBitmap 0)) 0 = true
  dirty : ∀ i ∈ fs.dirty, i < descBlocks m g

/-- The handle's stop merged it into the closed set; the commit is still to come. -/
def endHandle (m : Mount) (g : Geometry) (got : ℕ → Bool) (desc : ℕ → Image) (super : Image)
    (fs : Fs) : Bool × Fs :=
  let f := flushAtStop m g got desc super fs
  let c := closeHandle m got f.1 f.2.vol
  (c.1 && !mustFlush m f.2.vol.store, { f.2 with vol := { c.2 with active := false } })

/-- Handles that were closed since the last commit, with what they took and gave back. -/
inductive Pending (m : Mount) (g : Geometry) (fs0 : Fs) : Fs → Tally → Prop
  | none : Pending m g fs0 fs0 Tally.none
  | handle {fs : Fs} {T : Tally} (h : Pending m g fs0 fs T) (ops : List ((ℕ → Bool) × Op))
      (hops : ∀ op ∈ ops, op.2.Ok m g) (got : ℕ → Bool) (desc : ℕ → Image) (super : Image)
      (hok : (endHandle m g got desc super (runOps m g ops (openHandle fs) T).1).1 = true) :
      Pending m g fs0 (endHandle m g got desc super (runOps m g ops (openHandle fs) T).1).2
        (runOps m g ops (openHandle fs) T).2

/-- What is asked of each group when the commit fails.  A block that had reached its home has
the contents of the closed set, which must have the counts in memory.  Any other one has the
contents before the chain, so the group must have got back what was taken from it. -/
def Settled (m : Mount) (g : Geometry) (home : ℕ → Bool) (T : Tally) (fs : Fs) : Prop :=
  ∀ i < g.groupsCount,
    (if home (g.blockBitmap i) then
      freeCount (settledView fs.vol.store (g.blockBitmap i)) (groupSize m g i) = fs.freeBlocks i
      else T.allocBlocks i = T.freedBlocks i) ∧
    (if home (g.inodeBitmap i) then
      freeCount (settledView fs.vol.store (g.inodeBitmap i)) g.inodesPerGroup = fs.freeInodes i
      else T.allocInodes i = T.freedInodes i) ∧
    (Marked m g fs i ∨ if home (descBlock m g i) then
      g.counts (settledView fs.vol.store (descBlock m g i)) i = (fs.freeBlocks i, fs.freeInodes i)
      else T.allocBlocks i = T.freedBlocks i ∧ T.allocInodes i = T.freedInodes i)

section

variable {J : ℕ} {keep : Store → ℕ → Image} {fs0 fs : Fs} {T : Tally}

section

variable (L : Layout m J g)
include L

theorem Progress.perform (hkeep : Kept keep) (h : Progress m g keep fs0 T fs)
    (got : ℕ → Bool) {op : Op} (hop : op.Ok m g) :
    Progress m g keep fs0 (perform m g got fs T op).2 (perform m g got fs T op).1 := by
  cases op with
  | allocRun goal maxBlocks large => exact (h.allocRun got L hkeep goal maxBlocks large).1
  | freeBlock b => exact h.freeBlock got L hkeep b
  | allocInode => exact h.allocInode got L hkeep
  | freeInode i => exact h.freeInode got L hkeep i
  | journal b image => exact h.journal got hkeep image fun hb => hop (.inl hb)
  | write b image =>
    simp only [Ext2.perform, writeBlock]
    split
    · exact h
    · exact h.putBlock got hkeep image hop

theorem Progress.runOps (hkeep : Kept keep) {ops : List ((ℕ → Bool) × Op)}
    (hops : ∀ op ∈ ops, op.2.Ok m g) : ∀ {fs : Fs} {T : Tally}, Progress m g keep fs0 T fs →
      Progress m g keep fs0 (runOps m g ops fs T).2 (runOps m g ops fs T).1 := by
  induction ops with
  | nil => intro fs T h; exact h
  | cons op ops ih =>
    intro fs T h
    exact ih (fun o ho => hops o (mem_cons_of_mem _ ho))
      (h.perform L hkeep op.1 (hops op mem_cons_self))

theorem consistent_iff (hcache : CacheOk fs.vol.cache fs.vol.store.disk) : Consistent m g fs ↔
      (∀ i < g.groupsCount,
        freeCount (view fs.vol.store (g.blockBitmap i)) (groupSize m g i) = fs.freeBlocks i ∧
        freeCount (view fs.vol.store (g.inodeBitmap i)) g.inodesPerGroup = fs.freeInodes i ∧
        (Marked m g fs i ∨ g.counts (view fs.vol.store (descBlock m g i)) i =
          (fs.freeBlocks i, fs.freeInodes i))) ∧
      fs.totalBlocks = ∑ i ∈ Finset.range g.groupsCount, fs.freeBlocks i ∧
      fs.totalInodes = ∑ i ∈ Finset.range g.groupsCount, fs.freeInodes i := by
  have hread : ∀ got : ℕ → Bool, ∀ i < g.groupsCount,
      (readBlock m got fs.vol (g.blockBitmap i)).1 = some (view fs.vol.store (g.blockBitmap i)) ∧
      (readBlock m got fs.vol (g.inodeBitmap i)).1 = some (view fs.vol.store (g.inodeBitmap i)) ∧
      (readBlock m got fs.vol (descBlock m g i)).1 =
        some (view fs.vol.store (descBlock m g i)) := by
    intro got i hi
    have hpos : descBlock m g i ≠ 0 := by simp [descBlock]
    exact ⟨L.readBitmap hcache got hi,
      L.read hcache got (.inl ⟨i, hi, .inr rfl⟩) (L.inodeBitmap i hi),
      L.read hcache got (L.reserved_descBlock hi) hpos⟩
  refine and_congr_left' ⟨?_, ?_⟩
  · intro h i hi
    obtain ⟨hblock, hinode, hdesc⟩ := hread (fun _ => true) i hi
    simpa only [hblock, hinode, hdesc, map_some, some.injEq] using h (fun _ => true) i hi
  · intro h got i hi
    obtain ⟨hblock, hinode, hdesc⟩ := hread got i hi
    simpa only [hblock, hinode, hdesc, map_some, some.injEq] using h i hi

theorem Progress.endHandle (h : Progress m g Store.disk fs0 T fs)
    (got : ℕ → Bool) (desc : ℕ → Image) (super : Image)
    (hok : (endHandle m g got desc super fs).1 = true) :
    Progress m g Store.disk fs0 T (openHandle (endHandle m g got desc super fs).2) := by
  have hflush := h.flushAtStop got kept_disk L desc super
  rw [Ext2.endHandle] at hok ⊢
  set f := Ext2.flushAtStop m g got desc super fs
  rw [Bool.and_eq_true, Bool.not_eq_true'] at hok
  obtain ⟨hclose, hmust⟩ := hok
  -- the merge keeps the device and the image of every block
  obtain ⟨hcache, hdisk, hview⟩ : (closeHandle m got f.1 f.2.vol).2.cache = f.2.vol.cache ∧
      (closeHandle m got f.1 f.2.vol).2.store.disk = f.2.vol.store.disk ∧
      ∀ b, settledView (closeHandle m got f.1 f.2.vol).2.store b = view f.2.vol.store b := by
    rw [closeHandle] at hclose ⊢
    split at hclose
    · exact Bool.noConfusion hclose
    rename_i hio
    rw [if_neg hio]
    by_cases hrun : f.2.vol.store.running = []
    · rw [merge_of_nil got hrun]
      exact ⟨rfl, rfl, fun b => (view_of_running_nil hrun b).symm⟩
    · rw [merge_of_fits got hrun hmust]
      exact ⟨rfl, rfl, settledView_mergeEntries hflush.handle.nodup⟩
  refine ⟨⟨rfl, ?_, nodup_nil, ?_⟩, hflush.blocks, hflush.inodes, hflush.totalBlocks,
    hflush.totalInodes, ?_, ?_, hflush.dirty⟩
  · dsimp only [openHandle, start, startStore]
    rw [hcache, hdisk]
    exact hflush.handle.cache
  · intro b hb
    dsimp only [openHandle, start, startStore]
    rw [hdisk]
    exact hflush.handle.keep b hb
  · intro i hi
    have henough := hflush.enough i hi
    rw [← hview] at henough
    exact henough
  · intro hpos hfirst
    have hzero := hflush.zero hpos hfirst
    rw [← hview] at hzero
    exact hzero

end

end

namespace OneGroup

open WrappedLog (mount)

/-- A volume of one group whose first 32 blocks are in use. -/
def geometry : Geometry where
  firstDataBlock := 1
  blocksPerGroup := 8192
  inodesPerGroup := 8
  groupsCount := 1
  blockBitmap _ := 3
  inodeBitmap _ := 4
  extents := false
  descSize := 32
  counts image _ := ((image 12).toNat + 256 * (image 13).toNat,
    (image 14).toNat + 256 * (image 15).toNat)

def bitmap : Image := fun i => if i < 4 then 255 else 0

/-- The descriptor with a number of free blocks and of free inodes. -/
def descriptor (blocks inodes : UInt8) : Image := fun i =>
  if i = 12 then blocks else if i = 14 then inodes else 0

def disk : Disk := fun b =>
  if b = 2 then descriptor 67 8 else if b = 3 then bitmap else SmallLog.disk 8 b

def fs : Fs :=
  ⟨⟨⟨SmallLog.journal 8, disk, [], [], 0, false⟩, fun _ => ⟨0, none⟩, false⟩, fun _ => 67,
    fun _ => 8, 67, 8, false, false, []⟩

theorem isBitmap_iff (b : ℕ) : IsBitmap geometry b ↔ b = 3 ∨ b = 4 := by
  constructor
  · rintro ⟨i, -, h⟩
    exact h
  · intro h
    exact ⟨0, Nat.one_pos, h⟩

theorem outsideLog (h : b < 10 ∨ 18 ≤ b) : OutsideLog mount 8 b := by
  intro p hp hb
  have hlt : p < 8 := (journalPhys_ne_zero hp).2.2.2 (by decide)
  have hmap : mount.journalMap p = 10 + p := rfl
  omega

theorem reserved_iff (b : ℕ) : Reserved mount geometry b ↔ b = 2 ∨ b = 3 ∨ b = 4 := by
  have hblocks : descBlocks mount geometry = 1 := by decide
  rw [Reserved, isBitmap_iff, hblocks]
  constructor
  · rintro (h | ⟨i, hi, rfl⟩)
    · exact .inr h
    · obtain rfl := Nat.lt_one_iff.mp hi
      exact .inl rfl
  · rintro (rfl | h)
    · exact .inr ⟨0, Nat.one_pos, rfl⟩
    · exact .inl h

theorem layout : Layout mount 8 geometry where
  blocksPerGroup_pos := by decide
  blocksPerGroup_le := by decide
  blockBitmap _ _ := Nat.succ_ne_zero 2
  inodeBitmap _ _ := Nat.succ_ne_zero 3
  reserved := by
    intro b hb
    rw [reserved_iff] at hb
    have hlt : b < 10 := by omega
    exact ⟨hlt.trans (by decide), outsideLog (.inl hlt)⟩
  blockBitmap_inj i hi j hj _ := (Nat.lt_one_iff.mp hi).trans (Nat.lt_one_iff.mp hj).symm
  disjoint _ _ _ _ := Nat.ne_of_lt (Nat.lt_succ_self 3)
  superblock := by
    rw [isBitmap_iff]
    decide
  descriptors := by
    intro i hi
    obtain rfl : i = 0 := by
      have hblocks : descBlocks mount geometry = 1 := by decide
      omega
    rw [isBitmap_iff]
    decide
  descSize_pos := by decide

theorem cacheOk (d : Disk) : CacheOk (fun _ => ⟨0, none⟩) d := by
  intro i image hdata
  exact absurd hdata (by simp)

theorem sound : Sound mount geometry fs := by
  refine ⟨(consistent_iff layout (cacheOk _)).mpr ⟨?_, by decide, by decide⟩, ?_, cacheOk _, rfl,
    ?_, ?_⟩
  · intro i hi
    obtain rfl := Nat.lt_one_iff.mp hi
    exact ⟨by decide +kernel, by decide +kernel, .inr (by decide +kernel)⟩
  · intro i hi
    obtain rfl := Nat.lt_one_iff.mp hi
    decide +kernel
  · exact fun _ hfirst => absurd hfirst (by decide)
  · intro i hi
    cases hi

def take : List ((ℕ → Bool) × Op) := [(fun _ => true, .allocRun 0 1 false)]

/-- The descriptors that the stop after it writes. -/
def taken : ℕ → Image := fun _ => descriptor 66 8

/-- The volume after it, with the images in the closed set. -/
def closed : Fs :=
  (endHandle mount geometry (fun _ => true) taken (disk 1)
    (runOps mount geometry take (openHandle fs) Tally.none).1).2

theorem pending : Pending mount geometry fs closed
    (runOps mount geometry take (openHandle fs) Tally.none).2 := by
  refine .handle .none take ?_ (fun _ => true) taken (disk 1) (by decide +kernel)
  simp [take, Op.Ok]

end OneGroup

open OneGroup

end AvoryOS.Ext2
