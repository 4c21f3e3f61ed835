import AvoryOS.Ext2.Alloc

/-!
# Blocks that are freed and used again

A block holds metadata, is freed, and is handed out again for file data.  Metadata is staged
and file data is written directly, so two writes of one block can travel by different routes.

The system here is the whole of it: handles that open, close, defer and commit, the block
layer, and the allocators, over a ghost `Content` that records what was last written.
`reads_return_latest` says that reads return it, and that the device holds it once nothing
is staged, in every run where no direct write goes to a block that still has a staged image.
`freed_block_keeps_image` shows that freeing a block does not end the life of its image.
-/

namespace AvoryOS.Ext2

open Bytes Device Ext3 Bitmap List WrappedLog OneGroup

/-! ## Block operations -/

inductive BlockOp
  | read (b : ℕ)
  /-- Memory pressure takes a slot of the cache. -/
  | evict (i : ℕ)
  /-- An allocator forgets the cached image of a block. -/
  | forget (b : ℕ)
  | journal (b : ℕ) (image : Image)
  | write (b : ℕ) (image : Image)
  | writes (first : ℕ) (images : List Image)

namespace BlockOp

def vol (m : Mount) (got : ℕ → Bool) (v : Vol) : BlockOp → Vol
  | .read b => (readBlock m got v b).2
  | .evict i => { v with cache := Ext2.evict v.cache i }
  | .forget b => { v with cache := invalidate v.cache b }
  | .journal b image => (Ext2.journal m got v b image).2
  | .write b image => (writeBlock m got v b image).2
  | .writes first images => (writeBlocks m got v first images).2

/-- What has been written after it: a journaled write belongs to the open handle, and is a
direct one when none is open. -/
def content (m : Mount) (got : ℕ → Bool) (v : Vol) (c : Content) : BlockOp → Content
  | .journal b image =>
    if (Ext2.journal m got v b image).1 then
      if v.active then c.staged b image else c.direct b image
    else c
  | .write b image => if (writeBlock m got v b image).1 then c.direct b image else c
  | .writes first images =>
    if (writeBlocks m got v first images).1 then
      (images.mapIdx fun i image => (first + i, image)).foldl (fun c w => c.direct w.1 w.2) c
    else c
  | _ => c

/-- Neither write-set has an image of the block. -/
def Unstaged (v : Vol) (b : ℕ) : Prop :=
  staged v.store.running b = false ∧ staged v.store.closed b = false

/-- The operation stays clear of the log and makes no direct write to a staged block.  Block 0 is
not journaled while the cache has another block's bytes under its number. -/
def Careful (m : Mount) (journalBlocks : ℕ) (v : Vol) : BlockOp → Prop
  | .journal b _ => OutsideLog m journalBlocks b ∧ (v.active = false → Unstaged v b) ∧
      (v.active = true → b = 0 → ZeroSlot m v)
  | .write b _ => Unstaged v b
  | .writes first images => ∀ i < images.length, Unstaged v (first + i)
  | _ => True

end BlockOp

def runVol (m : Mount) (got : ℕ → Bool) (ops : List BlockOp) (v : Vol) : Vol :=
  ops.foldl (BlockOp.vol m got) v

def runContent (m : Mount) (got : ℕ → Bool) : List BlockOp → Vol → Content → Content
  | [], _, c => c
  | op :: ops, v, c => runContent m got ops (op.vol m got v) (op.content m got v c)

def CarefulOps (m : Mount) (journalBlocks : ℕ) (got : ℕ → Bool) : List BlockOp → Vol → Prop
  | [], _ => True
  | op :: ops, v => op.Careful m journalBlocks v ∧
      CarefulOps m journalBlocks got ops (op.vol m got v)

namespace Coherent

variable {m : Mount} {t : Journal} {v : Vol} {c : Content}

theorem blockOp (h : Coherent m t v c) (h0 : 0 < logLength m t.journalBlocks) (got : ℕ → Bool)
    {op : BlockOp} (hop : op.Careful m t.journalBlocks v) :
    Coherent m t (op.vol m got v) (op.content m got v c) := by
  cases op with
  | read b => exact h.read got b
  | evict i => exact h.of_cache (h.cache.evict i)
  | forget b => exact h.of_cache (h.cache.invalidate b)
  | journal b image =>
    obtain ⟨hout, hdirect, hzero⟩ := hop
    simp only [BlockOp.vol, BlockOp.content, journal]
    split
    · exact h
    by_cases hactive : v.active = true
    · simp only [if_pos hactive]
      exact h.journalBlock hactive h0 hout (hzero hactive)
    obtain ⟨hrun, hclosed⟩ := hdirect (Bool.eq_false_of_not_eq_true hactive)
    simp only [if_neg hactive, writeBlock]
    split
    · exact h
    · exact h.putBlock hrun hclosed
  | write b image =>
    simp only [BlockOp.vol, BlockOp.content, writeBlock]
    split
    · exact h
    · exact h.putBlock hop.1 hop.2
  | writes first images =>
    simp only [BlockOp.vol, BlockOp.content, writeBlocks]
    split
    · exact h
    refine h.putBlocks ?_
    intro w hw
    obtain ⟨i, hi, rfl⟩ := mem_mapIdx.mp hw
    exact hop i hi

theorem blockOps {got : ℕ → Bool} (h0 : 0 < logLength m t.journalBlocks) {ops : List BlockOp} :
    ∀ {v : Vol} {c : Content}, Coherent m t v c → CarefulOps m t.journalBlocks got ops v →
      Coherent m t (runVol m got ops v) (runContent m got ops v c) := by
  induction ops with
  | nil => intro v c h _; exact h
  | cons op ops ih =>
    intro v c h hops
    exact ih (h.blockOp h0 got hops.1) hops.2

end Coherent

/-! ## Allocator calls -/

/-- A call of the allocators, or the write-back of their counters. -/
inductive Call
  | free (b : ℕ)
  | alloc (goal maxBlocks : ℕ) (large : Bool)
  | allocInode
  | freeInode (i : ℕ)
  | flush (desc : ℕ → Image) (super : Image)

def Call.run (m : Mount) (g : Geometry) (got : ℕ → Bool) (fs : Fs) : Call → Fs
  | .free b => (freeBlock m g got fs b).2
  | .alloc goal maxBlocks large => (allocRun m g got goal maxBlocks large fs).2
  | .allocInode => (Ext2.allocInode m g got fs).2
  | .freeInode i => (Ext2.freeInode m g got fs i).2
  | .flush desc super => (flushMetadata m g got desc super fs).2

/-- The metadata of the groups, with the descriptor blocks that are waiting. -/
def IsGroupBlock (m : Mount) (g : Geometry) (dirty : List ℕ) (b : ℕ) : Prop :=
  IsBitmap g b ∨ b = 1024 / m.blockSize ∨
    ∃ i ∈ List.range (descBlocks m g) ++ dirty, b = g.firstDataBlock + 1 + i

/-- Allocators read, forget blocks, and journal the metadata of the groups. -/
def BlockOp.OfAllocator (m : Mount) (g : Geometry) (dirty : List ℕ) : BlockOp → Prop
  | .read _ => True
  | .forget _ => True
  | .journal b _ => IsGroupBlock m g dirty b
  | _ => False

/-- The second volume comes from the first by operations that an allocator makes. -/
def Emits (m : Mount) (g : Geometry) (dirty : List ℕ) (got : ℕ → Bool) (v v' : Vol) : Prop :=
  ∃ ops, (∀ op ∈ ops, op.OfAllocator m g dirty) ∧ v' = runVol m got ops v

namespace Emits

variable {m : Mount} {g : Geometry} {dirty : List ℕ} {got : ℕ → Bool} {v v' v'' : Vol}

theorem refl (v : Vol) : Emits m g dirty got v v := ⟨[], by simp, rfl⟩

theorem trans (h : Emits m g dirty got v v') (h' : Emits m g dirty got v' v'') :
    Emits m g dirty got v v'' := by
  obtain ⟨ops, hops, rfl⟩ := h
  obtain ⟨ops', hops', rfl⟩ := h'
  refine ⟨ops ++ ops', ?_, ?_⟩
  · intro op hop
    exact (mem_append.mp hop).elim (hops op) (hops' op)
  · rw [runVol, runVol, runVol, foldl_append]

theorem single {o : BlockOp} (h : o.OfAllocator m g dirty) :
    Emits m g dirty got v (o.vol m got v) :=
  ⟨[o], by simpa using h, rfl⟩

theorem read (v : Vol) (b : ℕ) : Emits m g dirty got v (readBlock m got v b).2 :=
  single (o := .read b) trivial

theorem journal (v : Vol) {b : ℕ} (image : Image) (h : IsGroupBlock m g dirty b) :
    Emits m g dirty got v (journal m got v b image).2 :=
  single (o := .journal b image) h

theorem forget (v : Vol) (b : ℕ) : Emits m g dirty got v { v with cache := invalidate v.cache b } :=
  single (o := .forget b) trivial

theorem forgetRun (v : Vol) (first n : ℕ) :
    Emits m g dirty got v { v with cache := invalidateRun v.cache first n } := by
  induction n with
  | zero => exact refl v
  | succ n ih => exact ih.trans (forget _ (first + n))

end Emits

section

variable {m : Mount} {g : Geometry} {dirty : List ℕ} (got : ℕ → Bool)

variable {group : ℕ}

theorem isGroupBlock_blockBitmap (h : group < g.groupsCount) :
    IsGroupBlock m g dirty (g.blockBitmap group) := .inl ⟨group, h, .inl rfl⟩

theorem isGroupBlock_inodeBitmap (h : group < g.groupsCount) :
    IsGroupBlock m g dirty (g.inodeBitmap group) := .inl ⟨group, h, .inr rfl⟩

theorem allocInGroup_emits (maxBlocks : ℕ) (large : Bool) (fs : Fs) (startBit : ℕ)
    (hg : group < g.groupsCount) :
    Emits m g dirty got fs.vol (allocInGroup m g got maxBlocks large fs group startBit).2.vol := by
  have hread : Emits m g dirty got fs.vol (readBlock m got fs.vol (g.blockBitmap group)).2 :=
    .read _ _
  rw [allocInGroup]
  dsimp only
  split
  · exact hread
  split
  · exact hread
  split
  · exact hread
  have hjournal : ∀ v image, Emits m g dirty got v
      (journal m got v (g.blockBitmap group) image).2 := fun v image =>
    .journal v image (isGroupBlock_blockBitmap hg)
  split
  · rw [markGroupDirty_vol]
    exact (hread.trans (hjournal _ _)).trans (.forgetRun _ _ _)
  · exact hread.trans (hjournal _ _)

theorem allocRun_emits (goal maxBlocks : ℕ) (large : Bool) (fs : Fs) :
    Emits m g dirty got fs.vol (allocRun m g got goal maxBlocks large fs).2.vol :=
  allocRun_rule (P := fun fs r => Emits m g dirty got fs.vol r.2.vol) (fun _ => .refl _)
    (fun fs _ bit _ hg => allocInGroup_emits got maxBlocks large fs bit hg)
    (fun _ _ _ hr _ hr' => hr.trans hr') goal fs

theorem freeBlock_emits (fs : Fs) (b : ℕ) :
    Emits m g dirty got fs.vol (freeBlock m g got fs b).2.vol := by
  rw [freeBlock]
  split
  · exact .refl _
  rw [markGroupDirty_vol]
  exact ((Emits.read _ _).trans (Emits.journal _ _ (isGroupBlock_blockBitmap (by omega)))).trans
    (Emits.forget _ b)

theorem allocInodeIn_emits {groups : List ℕ} (hgroups : ∀ i ∈ groups, i < g.groupsCount) :
    ∀ fs : Fs, Emits m g dirty got fs.vol (allocInodeIn m g got groups fs).2.vol := by
  induction groups with
  | nil => intro fs; exact .refl _
  | cons group rest ih =>
    intro fs
    have hrest := ih fun i hi => hgroups i (mem_cons_of_mem _ hi)
    have hread : Emits m g dirty got fs.vol (readBlock m got fs.vol (g.inodeBitmap group)).2 :=
      .read _ _
    rw [allocInodeIn]
    split
    · exact hrest fs
    dsimp only
    split
    · exact hread.trans (hrest _)
    · rw [markGroupDirty_vol]
      exact hread.trans (Emits.journal _ _ (isGroupBlock_inodeBitmap (hgroups group mem_cons_self)))

theorem freeInode_emits (fs : Fs) (i : ℕ) :
    Emits m g dirty got fs.vol (freeInode m g got fs i).2.vol := by
  rw [freeInode]
  split
  · exact .refl _
  · rw [markGroupDirty_vol]
    exact (Emits.read _ _).trans (Emits.journal _ _ (isGroupBlock_inodeBitmap (by omega)))

theorem journalAll_emits {ws : List (ℕ × Image)} (hws : ∀ w ∈ ws, IsGroupBlock m g dirty w.1) :
    ∀ v : Vol, Emits m g dirty got v (journalAll m got v ws).2 := by
  induction ws with
  | nil => intro v; exact .refl _
  | cons w ws ih =>
    intro v
    have hw : Emits m g dirty got v (journal m got v w.1 w.2).2 :=
      .journal v w.2 (hws w mem_cons_self)
    rw [journalAll]
    split
    · exact hw.trans (ih (fun u hu => hws u (mem_cons_of_mem _ hu)) _)
    · exact hw

theorem flushMetadata_emits (desc : ℕ → Image) (super : Image) (fs : Fs) :
    Emits m g fs.dirty got fs.vol (flushMetadata m g got desc super fs).2.vol := by
  have hsuper : IsGroupBlock m g fs.dirty (1024 / m.blockSize) := .inr (.inl rfl)
  rw [flushMetadata]
  split
  · exact .refl _
  dsimp only
  have hsub : ∀ i ∈ (if fs.allDirty then range (descBlocks m g) else fs.dirty),
      i ∈ range (descBlocks m g) ++ fs.dirty := by
    intro i hi
    split at hi
    · exact mem_append_left _ hi
    · exact mem_append_right _ hi
  generalize (if fs.allDirty then range (descBlocks m g) else fs.dirty) = blocks at hsub ⊢
  have hblocks : ∀ w ∈ blocks.map fun i => (g.firstDataBlock + 1 + i, desc i),
      IsGroupBlock m g fs.dirty w.1 := by
    intro w hw
    obtain ⟨i, hi, rfl⟩ := mem_map.mp hw
    exact .inr (.inr ⟨i, hsub i hi, rfl⟩)
  have hall := journalAll_emits got hblocks fs.vol
  split
  · split
    · exact hall.trans (.journal _ _ hsuper)
    · exact (hall.trans (.read _ _)).trans (.journal _ _ hsuper)
  · exact hall

variable {ops : List BlockOp}

theorem latest_runContent {b : ℕ} (hb : ¬ IsGroupBlock m g dirty b)
    (hops : ∀ op ∈ ops, op.OfAllocator m g dirty) :
    ∀ v c, (runContent m got ops v c).latest b = c.latest b := by
  induction ops with
  | nil => intro v c; rfl
  | cons op ops ih =>
    intro v c
    rw [runContent, ih fun o ho => hops o (mem_cons_of_mem _ ho)]
    have hop := hops op mem_cons_self
    cases op with
    | read | forget => rfl
    | evict | write | writes => exact hop.elim
    | journal x image =>
      have hx : b ≠ x := fun h => hb (h ▸ hop)
      rw [BlockOp.content]
      split
      · split
        · rw [Content.latest_staged, if_neg hx]
        · rw [Content.latest_direct, if_neg hx]
      · rfl

/-- **An allocator call is a sequence of block operations.** -/
theorem Call.emits (fs : Fs) (call : Call) :
    Emits m g fs.dirty got fs.vol (call.run m g got fs).vol := by
  cases call with
  | free b => exact freeBlock_emits got fs b
  | alloc goal maxBlocks large => exact allocRun_emits got goal maxBlocks large fs
  | allocInode =>
    rw [Call.run, Ext2.allocInode]
    split
    · exact .refl _
    · exact allocInodeIn_emits got (fun i hi => mem_range.mp hi) fs
  | freeInode i => exact freeInode_emits got fs i
  | flush desc super => exact flushMetadata_emits got desc super fs

end

/-! ## The system -/

inductive Event
  | op (got : ℕ → Bool) (op : BlockOp)
  /-- An allocator call, with the block operations that it makes. -/
  | call (got : ℕ → Bool) (call : Call) (ops : List BlockOp)
  | start
  /-- The outermost stop up to the merge, after the counters are written back. -/
  | close (got : ℕ → Bool) (flushed : Bool)
  /-- The rest of it: the commit is made or deferred. -/
  | settle (got : ℕ → Bool) (waiters fresh : Bool)
  /-- A cancelled waiter commits the chain. -/
  | commit (got : ℕ → Bool)
  | abort

/-- The steps of the system: the mounted filesystem, and what was written to it. -/
inductive Step (m : Mount) (g : Geometry) : Event → Fs × Content → Fs × Content → Prop
  | op (fs : Fs) (c : Content) (got : ℕ → Bool) (op : BlockOp) :
      Step m g (.op got op) (fs, c)
        ({ fs with vol := op.vol m got fs.vol }, op.content m got fs.vol c)
  | call (fs : Fs) (c : Content) (got : ℕ → Bool) (call : Call) (ops : List BlockOp)
      (h : (call.run m g got fs).vol = runVol m got ops fs.vol) :
      Step m g (.call got call ops) (fs, c) (call.run m g got fs, runContent m got ops fs.vol c)
  | start (fs : Fs) (c : Content) (h : fs.vol.active = false) :
      Step m g .start (fs, c) ({ fs with vol := Ext2.start fs.vol }, c)
  | close (fs : Fs) (c : Content) (got : ℕ → Bool) (flushed : Bool) (h : fs.vol.active = true) :
      Step m g (.close got flushed) (fs, c)
        ({ fs with vol := (closeHandle m got flushed fs.vol).2 },
          if (closeHandle m got flushed fs.vol).1 then c.close else c.drop)
  | settle (fs : Fs) (c : Content) (got : ℕ → Bool) (waiters fresh : Bool)
      (h : fs.vol.active = true) (hrun : fs.vol.store.running = []) :
      Step m g (.settle got waiters fresh) (fs, c)
        ({ fs with vol := (Ext2.settle m got waiters fresh fs.vol).2 }, c)
  | commit (fs : Fs) (c : Content) (got : ℕ → Bool) (h : fs.vol.active = false) :
      Step m g (.commit got) (fs, c) ({ fs with vol := (Ext2.commit m got fs.vol).2 }, c)
  | abort (fs : Fs) (c : Content) (h : fs.vol.active = true) :
      Step m g .abort (fs, c)
        ({ fs with vol := { fs.vol with store := abortStore fs.vol.store, active := false } },
          c.drop)

theorem exists_step_call (m : Mount) (g : Geometry) (got : ℕ → Bool) (fs : Fs) (c : Content)
    (call : Call) : ∃ ops c',
      (∀ b, ¬ IsGroupBlock m g fs.dirty b → c'.latest b = c.latest b) ∧
      Step m g (.call got call ops) (fs, c) (call.run m g got fs, c') := by
  obtain ⟨ops, hops, hvol⟩ := call.emits got fs
  exact ⟨ops, _, fun b hb => latest_runContent got hb hops fs.vol c,
    .call fs c got call ops hvol⟩

/-- No direct write goes to a block that still has a staged image, and every set that is
committed fits the log and has its scratch buffers. -/
def Careful (m : Mount) (journalBlocks : ℕ) (v : Vol) : Event → Prop
  | .op _ op => op.Careful m journalBlocks v
  | .call got _ ops => CarefulOps m journalBlocks got ops v
  | .close _ flushed =>
    v.store.ioFailed = false → flushed = true → mustFlush m v.store = true → Ready m v.store
  | .settle _ waiters fresh => shouldDefer m waiters fresh v.store = false → Ready m v.store
  | .commit _ => Ready m v.store
  | .start => True
  | .abort => True

def CarefulStep (m : Mount) (g : Geometry) (journalBlocks : ℕ) (x y : Fs × Content) : Prop :=
  ∃ e, Careful m journalBlocks x.1.vol e ∧ Step m g e x y

variable {m : Mount} {g : Geometry}

theorem CarefulStep.journal {J : ℕ} {fs : Fs} (c : Content)
    (got : ℕ → Bool) {b : ℕ} (image : Image) (hactive : fs.vol.active = true)
    (hb : OutsideLog m J b) (hne : b ≠ 0) : CarefulStep m g J (fs, c)
      ({ fs with vol := (BlockOp.journal b image).vol m got fs.vol },
        (BlockOp.journal b image).content m got fs.vol c) := by
  refine ⟨.op got (.journal b image), ⟨hb, ?_, fun _ h0 => absurd h0 hne⟩, .op fs c got _⟩
  intro hidle
  exact absurd (hactive.symm.trans hidle) (by decide)

theorem CarefulStep.write {J : ℕ} {fs : Fs} (c : Content)
    (got : ℕ → Bool) {b : ℕ} (image : Image) (hb : BlockOp.Unstaged fs.vol b) :
    CarefulStep m g J (fs, c) ({ fs with vol := (BlockOp.write b image).vol m got fs.vol },
      (BlockOp.write b image).content m got fs.vol c) :=
  ⟨.op got (.write b image), hb, .op fs c got _⟩

variable {t : Journal}

theorem Coherent.step {x y : Fs × Content}
    (h0 : 0 < logLength m t.journalBlocks) (h : Coherent m t x.1.vol x.2)
    (hstep : CarefulStep m g t.journalBlocks x y) : Coherent m t y.1.vol y.2 := by
  obtain ⟨e, hcareful, hstep⟩ := hstep
  cases hstep with
  | op fs c got op => exact h.blockOp h0 got hcareful
  | call fs c got call ops hvol =>
    rw [hvol]
    exact h.blockOps h0 hcareful
  | start fs c hidle => exact h.start hidle
  | close fs c got flushed _ => exact h.closeHandle got flushed hcareful
  | settle fs c got waiters fresh _ hrun => exact h.settle got waiters fresh hrun hcareful
  | commit fs c got _ => exact h.commit got hcareful
  | abort fs c _ => exact h.abort

/-- The volume after its mount, before anything was written. -/
structure Mounted (t : Journal) (d : Disk) (fs : Fs) : Prop where
  store : fs.vol.store = (mounted t d).2
  active : fs.vol.active = false
  cache : CacheOk fs.vol.cache d

theorem Mounted.coherent {d : Disk} {fs : Fs} (h : Mounted t d fs) :
    Coherent m t fs.vol ⟨d, d⟩ := by
  have hview : ∀ b, settledView fs.vol.store b = d b := by
    intro b
    rw [h.store]
    rfl
  have hrun : fs.vol.store.running = [] := by
    rw [h.store]
    rfl
  refine ⟨?_, fun _ => hrun, ?_, ?_, ?_⟩
  · rw [h.store]
    exact .mounted m t d
  · rw [h.store]
    exact h.cache
  · intro b _
    rw [view_of_running_nil hrun, hview]
  · intro b _
    rw [hview]

/-- **Reads return what was last written.**  In every run whose steps are careful, a read of a
block outside the log returns what was last written to it, and the device holds that once
nothing is staged.  Block 0 is the sentinel of a hole: it is read back only while it is staged. -/
theorem reads_return_latest {m : Mount} {g : Geometry} {t : Journal} {d d' : Disk} {fs : Fs}
    {x : Fs × Content} (hmount : initJournal m d = (some t, d')) (hfs : Mounted t d' fs)
    (hrun : Relation.ReflTransGen (CarefulStep m g t.journalBlocks) (fs, ⟨d', d'⟩) x) :
    (∀ got b, (b = 0 → ¬ BlockOp.Unstaged x.1.vol b) → b < m.blocksCount →
      OutsideLog m t.journalBlocks b →
      ∃ image, (readBlock m got x.1.vol b).1 = some image ∧
        SameBytes m.blockSize image (x.2.latest b)) ∧
    (x.1.vol.store.running = [] → x.1.vol.store.closed = [] → ∀ b,
      OutsideLog m t.journalBlocks b →
        SameBytes m.blockSize (x.1.vol.store.disk b) (x.2.latest b)) := by
  have h0 := logLength_pos hmount
  have hx : Coherent m t x.1.vol x.2 := by
    induction hrun with
    | refl => exact hfs.coherent
    | tail _ hstep ih => exact ih.step h0 hstep
  refine ⟨?_, ?_⟩
  · intro got b hb hlt hout
    refine ⟨_, readBlock_eq hx.cache got (fun h0 hnone => hb h0 ?_) hlt, hx.latest b hout⟩
    rw [readStaged, Option.or_eq_none_iff] at hnone
    exact ⟨lookup_eq_none.mp hnone.1, lookup_eq_none.mp hnone.2⟩
  intro hrunning hclosed b hout
  have hview : view x.1.vol.store b = x.1.vol.store.disk b := by
    rw [view_of_running_nil hrunning, settledView, hclosed]
    rfl
  rw [← hview]
  exact hx.latest b hout

/-- Any run of the system, careful or not. -/
def Reaches (m : Mount) (g : Geometry) : Fs × Content → Fs × Content → Prop :=
  Relation.ReflTransGen fun x y => ∃ e, Step m g e x y

namespace OneGroup

open WrappedLog (mount ones)

theorem mount_disk : initJournal mount disk = (some (SmallLog.journal 8), disk) := by
  have hread : readLog mount disk 0 = some (SmallLog.superblock 8) := readLog_eq disk 0 (by decide)
  have hsb : Superblock mount (SmallLog.journal 8) 0 (SmallLog.superblock 8) :=
    ⟨by decide, rfl, rfl, rfl, by decide⟩
  exact initJournal_clean hread hsb

theorem mounted_fs : Mounted (SmallLog.journal 8) disk fs := ⟨rfl, rfl, cacheOk _⟩

def got : ℕ → Bool := fun _ => true

def fileData : Image := fun _ => 2

/-- Stage the contents of a directory in block 33. -/
def stageDir (fs : Fs) : Fs := { fs with vol := (BlockOp.journal 33 ones).vol mount got fs.vol }

/-- A handle takes block 33 for a directory. -/
def makeDir : Fs := stageDir ((Call.alloc 0 1 false).run mount geometry got (openHandle fs))

/-- The stop of a handle; another thread may be waiting for the journal. -/
def stop (waiters : Bool) (fs : Fs) : Fs :=
  let f := (Call.flush (fun _ => zero) zero).run mount geometry got fs
  let c := (closeHandle mount got true f.vol).2
  { f with vol := (settle mount got waiters true c).2 }

/-- The next handle removes the directory and takes the block again for a file. -/
def reuse (fs : Fs) : Fs :=
  let freed := (Call.free 33).run mount geometry got (openHandle fs)
  let taken := (Call.alloc 0 1 false).run mount geometry got freed
  { taken with vol := (BlockOp.write 33 fileData).vol mount got taken.vol }

theorem reaches_call (fs : Fs) (c : Content) (call : Call) : ∃ c',
    (∀ b, ¬ IsGroupBlock mount geometry fs.dirty b → c'.latest b = c.latest b) ∧
    Reaches mount geometry (fs, c) (call.run mount geometry got fs, c') := by
  obtain ⟨ops, c', hlatest, hstep⟩ := exists_step_call mount geometry got fs c call
  exact ⟨c', hlatest, .single ⟨_, hstep⟩⟩

theorem reaches_start {fs : Fs} (c : Content) (h : fs.vol.active = false) :
    Reaches mount geometry (fs, c) (openHandle fs, c) := .single ⟨_, .start fs c h⟩

theorem reaches_op (fs : Fs) (c : Content) (op : BlockOp) : Reaches mount geometry (fs, c)
      ({ fs with vol := op.vol mount got fs.vol }, op.content mount got fs.vol c) :=
  .single ⟨_, .op fs c got op⟩

theorem reaches_makeDir (c : Content) : ∃ c', Reaches mount geometry (fs, c) (makeDir, c') := by
  obtain ⟨c', -, hcall⟩ := reaches_call (openHandle fs) c (.alloc 0 1 false)
  exact ⟨_, ((reaches_start c rfl).trans hcall).trans (reaches_op _ c' (.journal 33 ones))⟩

/-- The handle is closed, and nothing is left in the running set. -/
def Closes (fs : Fs) : Prop :=
  let f := (Call.flush (fun _ => zero) zero).run mount geometry got fs
  let c := closeHandle mount got true f.vol
  f.vol.active = true ∧ c.1 = true ∧ c.2.active = true ∧ c.2.store.running.isEmpty = true

instance (fs : Fs) : Decidable (Closes fs) := inferInstanceAs (Decidable (_ ∧ _))

/-- A stop that succeeds keeps what was last written outside the metadata of the groups. -/
theorem reaches_stop (waiters : Bool) {fs : Fs} (c : Content) (h : Closes fs) :
    ∃ c', (∀ b, ¬ IsGroupBlock mount geometry fs.dirty b → c'.latest b = c.latest b) ∧
      Reaches mount geometry (fs, c) (stop waiters fs, c') := by
  obtain ⟨hflush, hclose, hactive, hrunning⟩ := h
  obtain ⟨c', hlatest, hcall⟩ := reaches_call fs c (.flush (fun _ => zero) zero)
  have hstep := Step.close (m := mount) (g := geometry) _ c' got true hflush
  rw [hclose] at hstep
  refine ⟨c'.close, hlatest,
    (hcall.trans (.single ⟨_, hstep⟩)).trans (.single ⟨.settle got waiters true, ?_⟩)⟩
  exact .settle _ c'.close got waiters true hactive (isEmpty_iff.mp hrunning)

theorem reaches_reuse (fs : Fs) (c : Content) (h : fs.vol.active = false) :
    ∃ c', c'.latest 33 = fileData ∧ Reaches mount geometry (fs, c) (reuse fs, c') := by
  obtain ⟨c1, -, hfree⟩ := reaches_call (openHandle fs) c (.free 33)
  obtain ⟨c2, -, halloc⟩ := reaches_call ((Call.free 33).run mount geometry got (openHandle fs)) c1
    (.alloc 0 1 false)
  refine ⟨_, ?_, (((reaches_start c h).trans hfree).trans halloc).trans
    (reaches_op _ c2 (.write 33 fileData))⟩
  exact (Content.latest_direct _ _ _ _).trans (if_pos rfl)

def reused : Fs := reuse (stop true makeDir)

def committed : Fs := stop false reused

/-- The run, evaluated: both handles close, block 33 is read back as the directory, and the
commit brings the directory home. -/
theorem reuse_eval : Closes makeDir ∧ Closes reused ∧ (stop true makeDir).vol.active = false ∧
    reused.dirty = [0] ∧ (readBlock mount got reused.vol 33).1.map (· 0) = some 1 ∧
    committed.vol.store.running.isEmpty = true ∧ committed.vol.store.closed.isEmpty = true ∧
    committed.vol.store.disk 33 0 = 1 := by
  decide +kernel

theorem not_isGroupBlock : ¬ IsGroupBlock mount geometry reused.dirty 33 := by
  rw [IsGroupBlock, isBitmap_iff, reuse_eval.2.2.2.1]
  decide

/-- A run that ends after the file data was written, and one that ends after the commit. -/
theorem reaches_reused : ∃ x y : Fs × Content, x.1 = reused ∧ y.1 = committed ∧
    Reaches mount geometry (fs, ⟨disk, disk⟩) x ∧ x.2.latest 33 = fileData ∧
    Reaches mount geometry x y ∧ y.2.latest 33 = fileData := by
  obtain ⟨hfirst, hsecond, hidle, -⟩ := reuse_eval
  obtain ⟨c1, hdir⟩ := reaches_makeDir ⟨disk, disk⟩
  obtain ⟨c2, -, hdefer⟩ := reaches_stop true c1 hfirst
  obtain ⟨c3, hlatest, hreuse⟩ := reaches_reuse (stop true makeDir) c2 hidle
  obtain ⟨c4, hkeep, hstop⟩ := reaches_stop false c3 hsecond
  exact ⟨(reused, c3), (committed, c4), rfl, rfl, (hdir.trans hdefer).trans hreuse, hlatest, hstop,
    (hkeep 33 not_isGroupBlock).trans hlatest⟩

end OneGroup

/-- A directory block is freed before the handle that staged it is committed, and is used
again for file data.  A read returns the directory, and the commit writes it over the file. -/
theorem freed_block_keeps_image :
    initJournal mount OneGroup.disk = (some (SmallLog.journal 8), OneGroup.disk) ∧
    Mounted (SmallLog.journal 8) OneGroup.disk fs ∧ ∃ x y : Fs × Content,
      Reaches mount geometry (fs, ⟨OneGroup.disk, OneGroup.disk⟩) x ∧
      x.2.latest 33 = fileData ∧ fileData 0 = 2 ∧
      (readBlock mount got x.1.vol 33).1.map (· 0) = some 1 ∧
      Reaches mount geometry x y ∧
      y.2.latest 33 = fileData ∧
      y.1.vol.store.running = [] ∧ y.1.vol.store.closed = [] ∧ y.1.vol.store.disk 33 0 = 1 := by
  obtain ⟨x, y, hx, hy, hreused, hlatest, hcommitted, hkeep⟩ := reaches_reused
  obtain ⟨-, -, -, -, hread, hrunning, hclosed, hdisk⟩ := reuse_eval
  rw [← hx] at hread
  rw [← hy] at hrunning hclosed hdisk
  exact ⟨mount_disk, mounted_fs, x, y, hreused, hlatest, rfl, hread, hcommitted,
    hkeep, isEmpty_iff.mp hrunning, isEmpty_iff.mp hclosed, hdisk⟩

namespace OneGroup

open WrappedLog (mount ones)

theorem stageDir_eval : (journal mount got (openHandle fs).vol 33 ones).1 = true ∧
    staged (stageDir (openHandle fs)).vol.store.running 40 = false ∧
    staged (stageDir (openHandle fs)).vol.store.closed 40 = false := by
  decide +kernel

theorem careful_stageDir : ∃ c, c.latest 33 = ones ∧ Relation.ReflTransGen
    (CarefulStep mount geometry 8) (fs, ⟨disk, disk⟩) (stageDir (openHandle fs), c) := by
  have hstart : CarefulStep mount geometry 8 (fs, ⟨disk, disk⟩) (openHandle fs, ⟨disk, disk⟩) :=
    ⟨.start, trivial, .start fs _ rfl⟩
  have hactive : (openHandle fs).vol.active = true := rfl
  refine ⟨_, ?_, (Relation.ReflTransGen.single hstart).tail
    (.journal _ got ones hactive (outsideLog (.inr (by decide))) (by decide))⟩
  rw [BlockOp.content, if_pos stageDir_eval.1, if_pos hactive]
  exact (Content.latest_staged _ _ _ _).trans (if_pos rfl)

end OneGroup

/-- A handle stages a directory in block 33; block 40 gets file data.  Both are read back. -/
theorem reads_return_latest_staged : ∃ x : Fs × Content,
    Relation.ReflTransGen (CarefulStep mount geometry 8) (fs, ⟨OneGroup.disk, OneGroup.disk⟩) x ∧
    x.2.latest 33 = ones ∧ x.2.latest 40 = fileData ∧
    ∀ b ∈ [33, 40], ∃ image, (readBlock mount got x.1.vol b).1 = some image ∧
      SameBytes mount.blockSize image (x.2.latest b) := by
  obtain ⟨c, hlatest, hrun⟩ := careful_stageDir
  have hwrite := hrun.tail (.write c got fileData stageDir_eval.2)
  have hcontent : (BlockOp.write 40 fileData).content mount got
      (stageDir (openHandle fs)).vol c = c.direct 40 fileData := by
    rfl
  rw [hcontent] at hwrite
  have hread := (reads_return_latest mount_disk mounted_fs hwrite).1 got
  refine ⟨_, hwrite, ?_, ?_, ?_⟩
  · rw [Content.latest_direct, if_neg (by decide), hlatest]
  · rw [Content.latest_direct, if_pos rfl]
  intro b hb
  have hrange : ∀ b ∈ [33, 40], b ≠ 0 ∧ b < mount.blocksCount ∧ 18 ≤ b := by decide
  obtain ⟨hne, hlt, hlog⟩ := hrange b hb
  exact hread b (absurd · hne) hlt (outsideLog (.inr hlog))

end AvoryOS.Ext2
