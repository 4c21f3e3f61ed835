import AvoryOS.Ext2.Alloc
import AvoryOS.Ext4.Failure

/-!
# Histories of a tree

The trees that the code builds itself: from an empty one by insertions of newly allocated runs
into holes and by truncations, while the rest of the system leaves the blocks of the tree alone.
Their keys are exact and all their blocks are written, so a successful insertion changes the
lookup on the run and nowhere else (`insert_correct`).
-/

namespace AvoryOS.Ext4

open Bytes Ext3 Runs List

variable {m : Mount} {α : Type*} {A : Allocator m α}

/-! ## The blocks of a tree -/

/-- The blocks of the nodes below a node, with the number of levels. -/
def nodeBlocks (m : Mount) (d : ℕ → Image) : ℕ → Node → List ℕ
  | _, .leaf _ _ _ => []
  | 0, .index _ _ _ _ => []
  | k + 1, .index _ _ _ idxs => idxs.flatMap fun i => i.leaf ::
      match readNode m d i.leaf with
      | none => []
      | some node => nodeBlocks m d k node

/-- The blocks of the extents below a node. -/
def dataBlocks (m : Mount) (d : ℕ → Image) : ℕ → Node → List ℕ
  | _, .leaf _ _ exts => exts.flatMap fun e => List.range' e.start e.count
  | 0, .index _ _ _ _ => []
  | k + 1, .index _ _ _ idxs => idxs.flatMap fun i =>
    match readNode m d i.leaf with
    | none => []
    | some node => dataBlocks m d k node

section

variable {F E : Prop} {d : ℕ → Image} {k lo hi : ℕ} {node : Node} {cs : List (Cell Kind)}
  {bs : List ℕ}

theorem Rep.nodeBlocks_eq (h : Rep F E m d k lo hi node cs bs) : nodeBlocks m d k node = bs := by
  induction k generalizing lo hi node cs bs with
  | zero =>
    obtain ⟨max, gen, exts, rfl, -, -, -, -, rfl⟩ := h
    rfl
  | succ k ih =>
    obtain ⟨max, gen, idxs, rfl, -, -, -, hchain⟩ := h
    rw [nodeBlocks]
    induction hchain with
    | nil => rfl
    | cons read address max key exact child rest ih' =>
      rw [flatMap_cons, ih', read]
      dsimp only
      rw [ih child, cons_append]

theorem Rep.dataBlocks_eq (h : Rep True E m d k lo hi node cs bs) :
    dataBlocks m d k node = targets cs := by
  induction k generalizing lo hi node cs bs with
  | zero =>
    obtain ⟨max, gen, exts, rfl, -, hleaf, hfit, rfl, -⟩ := h
    have hself : below hi (leafCells exts) = leafCells exts := below_leafCells (hfit trivial)
    rw [hself, dataBlocks]
    clear hleaf hfit hself
    induction exts with
    | nil => rfl
    | cons e exts ih =>
      rw [flatMap_cons, ih, leafCells_cons, targets_append, targets_cells]
      rfl
  | succ k ih =>
    obtain ⟨max, gen, idxs, rfl, -, -, -, hchain⟩ := h
    rw [dataBlocks]
    induction hchain with
    | nil => rfl
    | cons read address max key exact child rest ih' =>
      rw [flatMap_cons, ih', read, targets_append]
      dsimp only
      rw [ih child]

end

/-! ## Histories -/

/-- The block belongs to the tree of the inode. -/
def InTree (m : Mount) (d : ℕ → Image) (root : Node) (b : ℕ) : Prop :=
  b ∈ nodeBlocks m d root.depth root ∨ b ∈ dataBlocks m d root.depth root

def treeBlocks (m : Mount) (d : ℕ → Image) (root : Node) : List ℕ :=
  dataBlocks m d root.depth root ++ nodeBlocks m d root.depth root

def kept (m : Mount) (ino : Inode) (newLen : ℕ) : ℕ :=
  if ino.size ≤ newLen then 2 ^ 32 else if newLen = 0 then 0 else keepBlocks m newLen

/-- The tree is cut: lookups change from block `keep` on, where they find nothing, and the blocks
that leave the tree are freed, each once. -/
def CutAt (A : Allocator m α) (s s' : Store α) (root root' : Node) (keep : ℕ) : Prop :=
  (∀ x < 2 ^ 32, getBlockNum m s'.blocks root' x =
    if x < keep then getBlockNum m s.blocks root x else 0) ∧
  (treeBlocks m s.blocks root).Nodup ∧ ∃ freed, Freed A s.alloc freed s'.alloc ∧
    (freed ++ treeBlocks m s'.blocks root').Perm (treeBlocks m s.blocks root)

theorem found_below (n : ℕ) (cs : List (Cell Kind)) (x : ℕ) :
    found (below n cs) x = if x < n then found cs x else 0 := by
  split
  · next hx => exact found_of_find (find_below hx)
  · next hx => exact found_of_none fun c hc heq => hx (heq ▸ (mem_below.mp hc).2)

def Unmapped (m : Mount) (d : ℕ → Image) (root : Node) (e : Extent) : Prop :=
  ∀ x, e.block ≤ x → x < e.block + e.len → getBlockNum m d root x = 0

/-- The blocks of the run are in use, and not by the tree. -/
def Allocated (A : Allocator m α) (s : Store α) (root : Node) (e : Extent) : Prop :=
  ∀ b, e.start ≤ b → b < e.start + e.len → ¬ A.Free s.alloc b ∧ ¬ InTree m s.blocks root b

/-- The states of an inode and of the volume around it. -/
inductive Reach (A : Allocator m α) : Store α → Inode → Prop
  | init (s : Store α) (ino : Inode) : Reach A s (initInode ino)
  | insert {s s' : Store α} {ino ino' : Inode} {o : Outcomes} {e : Extent} (h : Reach A s ino)
      (fits : RunFits m e) (unmapped : Unmapped m s.blocks ino.root e)
      (allocated : Allocated A s ino.root e) (run : Ext4.insert A o s ino e = (true, s', ino')) :
      Reach A s' ino'
  | truncate {s s' : Store α} {ino ino' : Inode} {ok : ℕ → Bool} {newLen : ℕ} (h : Reach A s ino)
      (run : Ext4.truncate A ok s ino newLen = some (s', ino')) : Reach A s' ino'
  /-- The rest of the system: other inodes, the data of the file, the other fields. -/
  | other {s s' : Store α} {ino ino' : Inode} (h : Reach A s ino)
      (blocks : ∀ b ∈ nodeBlocks m s.blocks ino.root.depth ino.root, s'.blocks b = s.blocks b)
      (used : ∀ b, InTree m s.blocks ino.root b → ¬ A.Free s.alloc b → ¬ A.Free s'.alloc b)
      (root : ino'.root = ino.root) (extents : ino'.extents = ino.extents) : Reach A s' ino'

/-- A tree of written extents with exact keys, whose blocks are in use and distinct. -/
structure Sound (A : Allocator m α) (s : Store α) (ino : Inode) (k : ℕ) (cs : List (Cell Kind))
    (bs : List ℕ) : Prop where
  extents : ino.extents = true
  root : RootOk ino.root
  rep : Rep True True m s.blocks k 0 (2 ^ 32) ino.root cs bs
  depth : k ≤ 2
  written : ∀ c ∈ cs, c.2.2 = .written
  owned : Owned A s.alloc (bs ++ targets cs)

variable {b : ℕ} {ino : Inode}

namespace Sound

variable {s s' : Store α} {ino' : Inode} {k : ℕ} {cs : List (Cell Kind)} {bs : List ℕ} {e : Extent}

theorem inTree_iff (h : Sound A s ino k cs bs) :
    InTree m s.blocks ino.root b ↔ b ∈ bs ++ targets cs := by
  rw [InTree, h.rep.depth_eq, h.rep.nodeBlocks_eq, h.rep.dataBlocks_eq, mem_append]

theorem treeBlocks_eq (h : Sound A s ino k cs bs) :
    treeBlocks m s.blocks ino.root = targets cs ++ bs := by
  rw [treeBlocks, h.rep.depth_eq, h.rep.nodeBlocks_eq, h.rep.dataBlocks_eq]

theorem known (h : Sound A s ino k cs bs) : Known cs := by
  intro c hc
  rw [h.written c hc]
  decide

theorem runOk (h : Sound A s ino k cs bs) (hfits : RunFits m e)
    (hole : Unmapped m s.blocks ino.root e) : RunOk m cs e := by
  refine ⟨hfits.ok, hfits.short, ?_⟩
  intro c hc
  by_contra hin
  have hcount := count_of_lt hfits.short
  have hx := (h.rep.bounds c hc).2
  have hdepth := h.depth
  have hzero := hole c.1 (by omega) (by omega)
  rw [getBlockNum_eq h.rep hx (by omega)] at hzero
  have hfound : found cs c.1 = c.2.1 := by
    refine (found_eq_iff h.rep.ascending (h.rep.target_pos c hc)).mpr ?_
    rw [← h.written c hc]
    exact hc
  have hpos := h.rep.target_pos c hc
  omega

theorem empty (s : Store α) (hext : ino.extents = true)
    (hroot : ino.root = emptyRoot) : Sound A s ino 0 [] [] := by
  refine ⟨hext, ?_, ?_, by decide, by simp, nodup_nil, by simp⟩
  · rw [hroot]
    exact ⟨⟨Nat.succ_pos 3, le_rfl⟩, by simp [emptyRoot, NodeFits]⟩
  · rw [hroot]
    exact ⟨4, 0, [], rfl, by decide, LeafOk.nil m _ _, by simp, rfl, rfl⟩

section

variable (h : Sound A s ino k cs bs)
include h

/-- Without the rest of the system taking part, the tree stays. -/
theorem other
    (hblocks : ∀ b ∈ nodeBlocks m s.blocks ino.root.depth ino.root, s'.blocks b = s.blocks b)
    (hused : ∀ b, InTree m s.blocks ino.root b → ¬ A.Free s.alloc b → ¬ A.Free s'.alloc b)
    (hroot : ino'.root = ino.root) (hext : ino'.extents = ino.extents) :
    Sound A s' ino' k cs bs := by
  rw [h.rep.depth_eq, h.rep.nodeBlocks_eq] at hblocks
  refine ⟨hext ▸ h.extents, hroot ▸ h.root, ?_, h.depth, h.written, h.owned.nodup, ?_⟩
  · rw [hroot]
    exact h.rep.frame hblocks
  · intro b hb
    exact hused b (h.inTree_iff.mpr hb) (h.owned.used b hb)

/-- **An insertion adds the cells of its run.** -/
theorem insert {o : Outcomes} (hrun : RunOk m cs e)
    (run : Ext4.insert A o s ino e = (true, s', ino')) :
    ∃ k' cs' bs' fresh, Rep True True m s'.blocks k' 0 (2 ^ 32) ino'.root cs' bs' ∧ k' ≤ 2 ∧
      RootOk ino'.root ∧ (∀ c, c ∈ cs' ↔ c ∈ cs ∨ c ∈ e.run.cells) ∧
      (targets cs').Perm (List.range' e.start e.len ++ targets cs) ∧
      bs'.Perm (fresh ++ bs) ∧ Grown A s.alloc s'.alloc fresh := by
  have hown : Owned A s.alloc bs := h.owned.sublist (sublist_append_left _ _)
  obtain ⟨ws, zs, exts', key, top, k', bs', fresh, eff⟩ :=
    insert_effect h.root h.extents h.rep hown hrun run
  have hcount := count_of_lt hrun.short
  have htop : e.block + e.count ≤ top := by
    rcases eff.exact trivial with heq | ⟨c, hc, hkey⟩
    · have hstop := hrun.ok.stop
      omega
    have hout := hrun.hole c hc
    have hlt := eff.lt
    omega
  have hclean : Clean (leafAt m s.blocks e.block 4 ino.root) e := by
    intro n hn
    have hmem := mem_of_joined hn
    have hpos := (eff.site.leaf.ok n (mem_place.mpr (.inr hmem))).count_pos
    have hcell : (n.block, n.start, n.kind) ∈ cs := by
      rw [eff.cells]
      refine mem_append_right _ (mem_append_left _ (mem_leafCells.mpr ⟨n, hmem, le_rfl, ?_, ?_⟩))
      · omega
      · simp
    exact kind_eq_written.mp (h.written _ hcell)
  have hcells := eff.inserted.leafCells_eq eff.site hclean
  have hself : below top (leafCells exts') = leafCells exts' := by
    rw [hcells]
    exact below_leafCells (stop_le_of_place eff.stop htop)
  refine ⟨k', _, bs', fresh, eff.rep.mono fun _ => htop, eff.depth, eff.root, ?_, ?_, eff.perm,
    eff.grown⟩
  · intro c
    rw [eff.mem_iff hclean]
    refine ⟨Or.imp_right And.left, Or.imp_right fun hc => ⟨hc, ?_⟩⟩
    have hlt := (Run.mem_cells.mp hc).2.1
    rw [Extent.run_stop] at hlt
    omega
  rw [hself, hcells, eff.cells, place, leafCells_append, leafCells_cons]
  have hold : leafCells (leafAt m s.blocks e.block 4 ino.root) =
      leafCells (before e.block (leafAt m s.blocks e.block 4 ino.root)) ++
        leafCells (after e.block (leafAt m s.blocks e.block 4 ino.root)) := by
    rw [← leafCells_append, before_append_after]
  rw [hold, ← hcount]
  simp only [targets_append, targets_cells, Extent.run_target, Extent.run_len]
  refine perm_iff_count.mpr fun x => ?_
  simp only [count_append]
  omega

theorem insert_sound {o : Outcomes} (hrun : RunOk m cs e)
    (hnew : Allocated A s ino.root e) (run : Ext4.insert A o s ino e = (true, s', ino'))
    (hext : ino'.extents = true) : ∃ k' cs' bs', Sound A s' ino' k' cs' bs' := by
  obtain ⟨k', cs', bs', fresh, hrep, hk, hroot, hmem, hperm, hperm', hgrown⟩ := h.insert hrun run
  refine ⟨k', cs', bs', hext, hroot, hrep, hk, ?_, ?_⟩
  · intro c hc
    rcases (hmem c).mp hc with hc | hc
    · exact h.written c hc
    · rw [(Run.mem_cells.mp hc).2.2]
      exact kind_eq_written.mpr hrun.short
  have hall : Owned A s.alloc (range' e.start e.len ++ (bs ++ targets cs)) := by
    refine ⟨?_, ?_⟩
    · refine nodup_append'.mpr ⟨nodup_range', h.owned.nodup, ?_⟩
      intro b hb hb'
      obtain ⟨h1, h2⟩ := mem_range'_1.mp hb
      exact (hnew b h1 h2).2 (h.inTree_iff.mpr hb')
    intro b hb
    rcases mem_append.mp hb with hb | hb
    · obtain ⟨h1, h2⟩ := mem_range'_1.mp hb
      exact (hnew b h1 h2).1
    · exact h.owned.used b hb
  refine (hall.grow hgrown).perm (perm_iff_count.mpr fun x => ?_)
  have h1 := perm_iff_count.mp hperm x
  have h2 := perm_iff_count.mp hperm' x
  simp only [count_append] at h1 h2 ⊢
  omega

/-- **A truncation keeps the cells below a block** and frees the rest. -/
theorem truncate_cells (ok : ℕ → Bool) (newLen : ℕ) :
    Settles A ok (fun r => ∃ k' cs' bs', Sound A r.1 r.2 k' cs' bs' ∧ (¬ Faulty A ok →
      cs' = below (kept m ino newLen) cs ∧ ∃ freed, Freed A s.alloc freed r.1.alloc ∧
        (freed ++ (targets cs' ++ bs')).Perm (targets cs ++ bs)))
      (Ext4.truncate A ok s ino newLen) := by
  have hext : ino.extents ≠ false := by rw [h.extents]; decide
  by_cases hsize : ino.size ≤ newLen
  · rw [Ext4.truncate, if_neg hext, if_pos hsize, kept, if_pos hsize]
    exact ⟨k, cs, bs, ⟨h.extents, h.root, h.rep, h.depth, h.written, h.owned⟩, fun _ =>
      ⟨(below_eq_self fun c hc => (h.rep.bounds c hc).2).symm, [], .nil, Perm.refl _⟩⟩
  by_cases hzero : newLen = 0
  · rw [Ext4.truncate, if_neg hext, if_neg hsize, if_pos hzero, kept, if_neg hsize, if_pos hzero]
    refine ⟨0, [], [], empty _ rfl rfl, fun hok => ⟨by simp [below], ?_⟩⟩
    rw [freeAll, h.rep.depth_eq]
    obtain ⟨-, freed, hfreed, hperm⟩ | ⟨-, hfault⟩ := freeNode_spec ok h.rep h.known s.alloc
    · exact ⟨freed, hfreed, by simpa using hperm⟩
    · exact absurd hfault hok
  have hnodup : (targets cs ++ bs).Nodup := perm_append_comm.nodup_iff.mp h.owned.nodup
  have hspec := truncate_spec (A := A) ok h.extents h.root h.rep h.known hnodup (by omega) hzero
  cases hr : Ext4.truncate A ok s ino newLen with
  | none => rwa [hr] at hspec
  | some r =>
  rw [hr] at hspec
  obtain ⟨k', bs', freed, cut⟩ := hspec
  have hfreed := cut.removal.freed
  rw [clearEnd_alloc] at hfreed
  refine ⟨k', _, bs', ⟨?_, cut.root, cut.rep, cut.depth.trans h.depth, ?_, ?_, ?_⟩, fun _ =>
    ⟨by rw [kept, if_neg hsize, if_neg hzero], freed, hfreed, cut.removal.perm⟩⟩
  · have hext := congrArg Inode.extents cut.inode
    exact hext.trans h.extents
  · intro c hc
    exact h.written c (mem_below.mp hc).1
  · have hn := cut.removal.perm.nodup_iff.mpr hnodup
    exact perm_append_comm.nodup_iff.mp (nodup_append'.mp hn).2.1
  intro b hb hfree
  have hn := cut.removal.perm.nodup_iff.mpr hnodup
  have hb' : b ∈ targets (below (keepBlocks m newLen) cs) ++ bs' := perm_append_comm.mem_iff.mp hb
  rcases hfreed.free hfree with hfree | hfreed
  · refine h.owned.used b ?_ hfree
    refine perm_append_comm.mem_iff.mp (cut.removal.perm.mem_iff.mp ?_)
    exact mem_append_right _ hb'
  · exact (nodup_append'.mp hn).2.2 hfreed hb'

theorem truncate {ok : ℕ → Bool} {newLen : ℕ}
    (run : Ext4.truncate A ok s ino newLen = some (s', ino')) :
    ∃ k' cs' bs', Sound A s' ino' k' cs' bs' := by
  have hcells := h.truncate_cells ok newLen
  rw [run] at hcells
  obtain ⟨k', cs', bs', hsound, -⟩ := hcells
  exact ⟨k', cs', bs', hsound⟩

theorem cutAt {ok : ℕ → Bool} (hok : ¬ Faulty A ok) (newLen : ℕ) :
    ∃ s' ino', Ext4.truncate A ok s ino newLen = some (s', ino') ∧
      CutAt A s s' ino.root ino'.root (kept m ino newLen) := by
  have hcells := h.truncate_cells ok newLen
  cases hr : Ext4.truncate A ok s ino newLen with
  | none => rw [hr] at hcells; exact absurd hcells hok
  | some r =>
  rw [hr] at hcells
  obtain ⟨k', cs', bs', hsound, hcut⟩ := hcells
  obtain ⟨rfl, freed, hfreed, hperm⟩ := hcut hok
  have hdepth := h.depth
  have hdepth' := hsound.depth
  refine ⟨r.1, r.2, rfl, fun x hx => ?_, ?_, freed, hfreed, ?_⟩
  · rw [getBlockNum_eq hsound.rep hx (by omega), getBlockNum_eq h.rep hx (by omega), found_below]
  · rw [h.treeBlocks_eq]
    exact perm_append_comm.nodup_iff.mp h.owned.nodup
  · rwa [h.treeBlocks_eq, hsound.treeBlocks_eq]

end

end Sound

/-! ## The other fields -/

/-- The inodes differ in their tree and in `i_blocks` only. -/
def SameFile (ino ino' : Inode) : Prop :=
  ino' = { ino with root := ino'.root, blocks := ino'.blocks }

theorem SameFile.trans {ino' ino'' : Inode} (h1 : SameFile ino ino') (h2 : SameFile ino' ino'') :
    SameFile ino ino'' :=
  Eq.trans h2 (congrArg (fun i : Inode => { i with root := ino''.root, blocks := ino''.blocks }) h1)

variable {max gen : ℕ} {image : Image} {idxs : List Index} {i : Index}

section

variable {s s' : Store α} {ino' : Inode} {o : Outcomes} {e : Extent}

theorem growRoot_sameFile (g : GrowOutcomes) (s : Store α) (ino : Inode) :
    SameFile ino (growRoot A g s ino).2.2 := by
  rw [growRoot]
  split
  · rfl
  · split <;> rfl

theorem splitIndex_sameFile :
    SameFile ino (splitIndex A o s ino b image max gen idxs i).2.2 := by
  dsimp only [splitIndex]
  repeat' split
  all_goals rfl

theorem addRootIndex_sameFile : SameFile ino (addRootIndex A o s ino i).2.2 := by
  have hgrow := growRoot_sameFile (A := A) o.growIndex s ino
  dsimp only [addRootIndex]
  repeat' split
  all_goals first | rfl | exact hgrow

theorem splitLeaf_sameFile {exts : List Extent} :
    SameFile ino (splitLeaf A o s ino b image max gen exts e).2.2 := by
  rw [splitLeaf]
  split
  · rfl
  rename_i s1 i _
  have hadd : SameFile ino (addRootIndex A o s1 ino i).2.2 := addRootIndex_sameFile
  dsimp only
  split
  · exact hadd.trans rfl
  · exact hadd

theorem addBelow2_sameFile {p : ℕ} :
    SameFile ino (addBelow2 A o s ino p image max gen idxs i).2.2 := by
  rw [addBelow2]
  split
  · split <;> rfl
  · exact splitIndex_sameFile

theorem splitBelow2_sameFile {p leafMax leafGen : ℕ}
    {leafImage : Image} {exts : List Extent} :
    SameFile ino (splitBelow2 A o s ino p image max gen idxs b leafImage leafMax
      leafGen exts e).2.2 := by
  rw [splitBelow2]
  split
  · rfl
  rename_i s1 i _
  have hadd : SameFile ino (addBelow2 A o s1 ino p image max gen idxs i).2.2 :=
    addBelow2_sameFile
  dsimp only
  split
  · exact hadd.trans rfl
  · exact hadd

theorem insertBelow1_sameFile :
    SameFile ino (insertBelow1 A o s ino max gen idxs e).2.2 := by
  dsimp only [insertBelow1]
  repeat' split
  all_goals first | rfl | (refine SameFile.trans ?_ splitLeaf_sameFile; rfl)

theorem insertBelow2_sameFile :
    SameFile ino (insertBelow2 A o s ino max gen idxs e).2.2 := by
  dsimp only [insertBelow2]
  repeat' split
  all_goals first | rfl | (refine SameFile.trans ?_ splitBelow2_sameFile; rfl)

theorem insertFrom_sameFile (retries : ℕ) : SameFile ino (insertFrom A o e retries s ino).2.2 := by
  induction retries generalizing s ino with
  | zero | succ retries ih =>
    rw [insertFrom]
    split
    · split
      · rfl
      · rfl
      have hgrow := growRoot_sameFile (A := A) o.growLeaf s ino
      generalize growRoot A o.growLeaf s ino = g at hgrow ⊢
      obtain ⟨_ | _, g⟩ := g
      · exact hgrow
      · first | exact hgrow | exact hgrow.trans ih
    · split
      · exact insertBelow1_sameFile
      split
      · exact insertBelow2_sameFile
      · rfl

/-- **An insertion changes the tree and `i_blocks`**, and no other field. -/
theorem insert_sameFile {r : Bool} (hext : ino.extents = true)
    (h : Ext4.insert A o s ino e = (r, s', ino')) : SameFile ino ino' := by
  have hino : (insert A o s ino e).2.2 = ino' := by rw [h]
  rw [← hino, insert]
  split
  · exact insertFrom_sameFile 1
  · rfl

theorem insert_extents {r : Bool} (hext : ino.extents = true)
    (h : Ext4.insert A o s ino e = (r, s', ino')) : ino'.extents = true :=
  (congrArg Inode.extents (insert_sameFile hext h)).trans hext

end

/-! ## Insertions -/

/-- **Every tree reached is sound.** -/
theorem Reach.sound {s : Store α} (h : Reach A s ino) : ∃ k cs bs, Sound A s ino k cs bs := by
  induction h with
  | init s ino => exact ⟨0, [], [], Sound.empty s rfl rfl⟩
  | insert _ fits unmapped allocated run ih =>
    obtain ⟨k, cs, bs, hsound⟩ := ih
    exact hsound.insert_sound (hsound.runOk fits unmapped) allocated run
      (insert_extents hsound.extents run)
  | truncate _ run ih =>
    obtain ⟨k, cs, bs, hsound⟩ := ih
    exact hsound.truncate run
  | other _ blocks used root extents ih =>
    obtain ⟨k, cs, bs, hsound⟩ := ih
    exact ⟨k, cs, bs, hsound.other blocks used root extents⟩

/-- The tree is in order: in every node the entries are sorted and disjoint and no more than
`eh_max`, the keys bound their subtrees from below and separate them, and all leaves have the
same depth. -/
def Balanced (m : Mount) (d : ℕ → Image) (root : Node) : Prop :=
  ∃ cs bs, Rep True True m d root.depth 0 (2 ^ 32) root cs bs

/-- **A successful insertion changes the lookup on its run and nowhere else**, and the tree stays
in order. -/
theorem insert_correct {s s' : Store α} {ino ino' : Inode} {o : Outcomes} {e : Extent}
    (hreach : Reach A s ino) (hfits : RunFits m e) (hole : Unmapped m s.blocks ino.root e)
    (h : insert A o s ino e = (true, s', ino')) :
    (∀ x < 2 ^ 32, getBlockNum m s'.blocks ino'.root x =
        if e.block ≤ x ∧ x < e.block + e.len then e.start + (x - e.block)
        else getBlockNum m s.blocks ino.root x) ∧
      Balanced m s'.blocks ino'.root := by
  obtain ⟨k, cs, bs, hsound⟩ := hreach.sound
  have hrun := hsound.runOk hfits hole
  have hcount := count_of_lt hrun.short
  have hdepth := hsound.depth
  obtain ⟨k', cs', bs', fresh, hrep, hk, -, hmem, -, -, -⟩ := hsound.insert hrun h
  refine ⟨?_, cs', bs', by rw [hrep.depth_eq]; exact hrep⟩
  intro x hx
  rw [getBlockNum_eq hrep hx (by omega), getBlockNum_eq hsound.rep hx (by omega)]
  split
  · rename_i hin
    have hstart := hrun.ok.start
    refine (found_eq_iff hrep.ascending (by omega)).mpr ((hmem _).mpr (.inr ?_))
    refine Run.mem_cells.mpr ⟨hin.1, ?_, ?_⟩
    · rw [Extent.run_stop, hcount]
      exact hin.2
    · rw [Extent.run_target, Extent.run_first, Extent.run_tag, kind_eq_written.mpr hrun.short]
  rename_i hout
  refine found_of_find (find_congr hrep.ascending hsound.rep.ascending fun v => ?_)
  rw [hmem]
  refine or_iff_left fun hc => hout ?_
  have hcell := Run.mem_cells.mp hc
  rw [Extent.run_stop, hcount] at hcell
  exact ⟨hcell.1, hcell.2.1⟩

open SmallTree in
/-- A run of one block at the last logical number: the end of the extent is computed as 0, and the
lookup does not find the block that was inserted. -/
theorem last_block_not_found :
    Reach full store (inode []) ∧ Unmapped volume store.blocks (inode []).root ⟨2 ^ 32 - 1, 1, 50⟩ ∧
      Allocated full store (inode []).root ⟨2 ^ 32 - 1, 1, 50⟩ ∧
      insert full smooth store (inode []) ⟨2 ^ 32 - 1, 1, 50⟩ =
        (true, store, inode [⟨2 ^ 32 - 1, 1, 50⟩]) ∧
      getBlockNum volume store.blocks (inode [⟨2 ^ 32 - 1, 1, 50⟩]).root (2 ^ 32 - 1) = 0 := by
  refine ⟨Reach.init store (inode []), ?_, ?_, rfl, by decide⟩
  · intro x _ _
    rfl
  intro b _ _
  exact ⟨fun h => h, fun h => h.elim (fun h => absurd h not_mem_nil) fun h => absurd h not_mem_nil⟩

namespace SmallTree

/-- A run of one block at every other block of a file. -/
def apart (n : ℕ) : Extent := ⟨2 * n, 1, 50 + 2 * n⟩

/-- The tree after some of these runs; four fit in the inode. -/
def grown : ℕ → Store Bool × Inode
  | 0 => (⟨fun _ => zero, true⟩, inode [])
  | n + 1 => (insert lastBlock smooth (grown n).1 (grown n).2 (apart n)).2

theorem apart_spec : ∀ n < 5, RunFits volume (apart n) ∧
    (insert lastBlock smooth (grown n).1 (grown n).2 (apart n)).1 = true ∧
    getBlockNum volume (grown n).1.blocks (grown n).2.root (2 * n) = 0 ∧
    50 + 2 * n ∉ treeBlocks volume (grown n).1.blocks (grown n).2.root := by
  have heval : ∀ n < 5, (insert lastBlock smooth (grown n).1 (grown n).2 (apart n)).1 = true ∧
      getBlockNum volume (grown n).1.blocks (grown n).2.root (2 * n) = 0 ∧
      50 + 2 * n ∉ treeBlocks volume (grown n).1.blocks (grown n).2.root := by decide +kernel
  refine fun n hn => ⟨?_, heval n hn⟩
  have hcases : n = 0 ∨ n = 1 ∨ n = 2 ∨ n = 3 ∨ n = 4 := by omega
  rcases hcases with rfl | rfl | rfl | rfl | rfl <;> exact ⟨by constructor <;> decide, by decide⟩

theorem unmapped_apart {n : ℕ} (hn : n < 5) :
    Unmapped volume (grown n).1.blocks (grown n).2.root (apart n) := by
  intro x hle hlt
  obtain rfl : x = 2 * n := by
    dsimp only [apart] at hle hlt
    omega
  exact (apart_spec n hn).2.2.1

theorem reach_grown {n : ℕ} (hn : n ≤ 5) : Reach lastBlock (grown n).1 (grown n).2 := by
  induction n with
  | zero => exact .init _ (inode [])
  | succ n ih =>
    obtain ⟨hfits, hrun, -, hnew⟩ := apart_spec n hn
    refine .insert (o := smooth) (ih (by omega)) hfits (unmapped_apart hn) ?_ (Prod.ext hrun rfl)
    intro b hle hlt
    obtain rfl : b = 50 + 2 * n := by
      dsimp only [apart] at hle hlt
      omega
    rw [treeBlocks, mem_append] at hnew
    exact ⟨fun hfree => by have := hfree.2; omega, fun hin => hnew hin.symm⟩

end SmallTree

open SmallTree in
/-- The fifth run moves the extents of the inode to a leaf of their own. -/
theorem insert_correct_fifth : (grown 5).2.root = .index 4 1 0 [⟨0, 7⟩] ∧
    (∀ x < 2 ^ 32, getBlockNum volume (grown 5).1.blocks (grown 5).2.root x =
        if 8 ≤ x ∧ x < 8 + 1 then 58 + (x - 8)
        else getBlockNum volume (grown 4).1.blocks (grown 4).2.root x) ∧
      Balanced volume (grown 5).1.blocks (grown 5).2.root := by
  have hlt : 4 < 5 := by decide
  obtain ⟨hfits, hrun, -⟩ := apart_spec 4 hlt
  exact ⟨by decide +kernel, insert_correct (o := smooth) (reach_grown hlt.le) hfits
    (unmapped_apart hlt) (Prod.ext hrun rfl)⟩

/-- **Truncation frees exactly the tail** if and only if the number of blocks to keep does not
wrap, or nothing is mapped below the cut, and a file that does not shrink has no block behind its
new end. -/
theorem truncate_cuts_iff {s : Store α} {ino : Inode} {ok : ℕ → Bool} {newLen : ℕ}
    (hreach : Reach A s ino) (hok : ¬ Faulty A ok) (hlen : newLen < 2 ^ 32) :
    (∃ s' ino', truncate A ok s ino newLen = some (s', ino') ∧
      CutAt A s s' ino.root ino'.root ((newLen + m.blockSize - 1) / m.blockSize)) ↔
    ∀ x < 2 ^ 32, getBlockNum m s.blocks ino.root x ≠ 0 →
      if ino.size ≤ newLen then x < (newLen + m.blockSize - 1) / m.blockSize
      else newLen + m.blockSize ≤ 2 ^ 32 ∨ (newLen + m.blockSize - 1) / m.blockSize ≤ x := by
  obtain ⟨k, cs, bs, hsound⟩ := hreach.sound
  obtain ⟨s', ino', hrun, hcut⟩ := hsound.cutAt hok newLen
  have hle := m.le_blockSize
  have hbs := m.blockSize_le
  generalize hkeep : (newLen + m.blockSize - 1) / m.blockSize = keep
  have hkept : ∀ x < 2 ^ 32, (x < kept m ino newLen ↔ x < keep) ↔
      if ino.size ≤ newLen then x < keep else newLen + m.blockSize ≤ 2 ^ 32 ∨ keep ≤ x := by
    intro x hx
    rw [kept]
    split_ifs with hsize hzero
    · exact iff_true_left hx
    · have : keep = 0 := by rw [← hkeep, hzero]; exact Nat.div_eq_of_lt (by omega)
      omega
    rw [keepBlocks]
    by_cases hwrap : newLen + m.blockSize ≤ 2 ^ 32
    · rw [Nat.mod_eq_of_lt (by omega), hkeep]
      exact iff_of_true Iff.rfl (.inl hwrap)
    · have hzero : (newLen + m.blockSize - 1) % 2 ^ 32 / m.blockSize = 0 :=
        Nat.div_eq_of_lt (by omega)
      rw [hzero]
      omega
  have hiff : CutAt A s s' ino.root ino'.root keep ↔ ∀ x < 2 ^ 32,
      getBlockNum m s.blocks ino.root x ≠ 0 → (x < kept m ino newLen ↔ x < keep) := by
    refine ⟨fun hcut' x hx hne => ?_, fun hcond => ⟨fun x hx => ?_, hcut.2⟩⟩
    · have heq := (hcut.1 x hx).symm.trans (hcut'.1 x hx)
      split_ifs at heq <;> grind
    · rw [hcut.1 x hx]
      by_cases hne : getBlockNum m s.blocks ino.root x = 0
      · simp [hne]
      · simp only [hcond x hx hne]
  rw [← forall₃_congr fun x hx _ => hkept x hx, ← hiff]
  simp [hrun]

namespace SmallTree

/-- One block at the start of the largest file. -/
def sparse : Inode := { inode [⟨0, 1, 50⟩] with size := 2 ^ 32 - 1 }

theorem reach_sparse : Reach full store sparse := by
  have hins : Reach full store (inode [⟨0, 1, 50⟩]) := by
    refine .insert (o := smooth) (e := ⟨0, 1, 50⟩) (.init store (inode []))
      ⟨by constructor <;> decide, by decide⟩ (fun _ _ _ => rfl) (fun b _ _ => ⟨id, ?_⟩) rfl
    exact fun h => h.elim (absurd · not_mem_nil) (absurd · not_mem_nil)
  exact .other hins (fun _ _ => rfl) (fun _ _ => id) rfl rfl

theorem not_faulty : ¬ Faulty full fun _ => true := by
  simp [Faulty, full]

/-- The five runs, in a file of 10000 bytes. -/
def sized : Inode := { (grown 5).2 with size := 10000 }

end SmallTree

open SmallTree in
/-- The cut frees the last three runs and the leaf, whose other extents go back to the inode. -/
theorem truncate_cuts_grown : ∃ s' ino',
    truncate lastBlock (fun _ => true) (grown 5).1 sized 3000 = some (s', ino') ∧
      CutAt lastBlock (grown 5).1 s' sized.root ino'.root ((3000 + 1024 - 1) / 1024) := by
  have hreach : Reach lastBlock (grown 5).1 sized :=
    .other (reach_grown le_rfl) (fun _ _ => rfl) (fun _ _ => id) rfl rfl
  have hok : ¬ Faulty lastBlock fun _ => true := by simp [Faulty, lastBlock]
  exact (truncate_cuts_iff hreach hok (by decide)).mpr fun _ _ _ => .inl (by decide)

open SmallTree in
/-- A file of 4 GiB that loses its last byte loses all its blocks. -/
theorem truncate_wraps : Reach full store sparse ∧ (¬ Faulty full fun _ => true) ∧
    getBlockNum volume store.blocks sparse.root 0 = 50 ∧
    ∃ s' ino', truncate full (fun _ => true) store sparse (2 ^ 32 - 2) = some (s', ino') ∧
      getBlockNum volume s'.blocks ino'.root 0 = 0 :=
  ⟨reach_sparse, not_faulty, rfl, _, _, rfl, rfl⟩

theorem Sound.not_free {s : Store α} {k : ℕ} {cs : List (Cell Kind)} {bs : List ℕ}
    (h : Sound A s ino k cs bs) {x : ℕ} (hx : x < 2 ^ 32)
    (hne : getBlockNum m s.blocks ino.root x ≠ 0) :
    ¬ A.Free s.alloc (getBlockNum m s.blocks ino.root x) := by
  have hdepth := h.depth
  rw [getBlockNum_eq h.rep hx (by omega)] at hne ⊢
  have hcell := (found_eq_iff h.rep.ascending (pos_of_ne_zero hne)).mp rfl
  exact h.owned.used _ (mem_append_right _ (mem_map_of_mem hcell))

/-- **A block has one use in a file.**  In every tree reached, no two logical blocks are mapped to
one block, and a mapped block is neither a node of the tree nor free. -/
theorem mapped_once {s : Store α} {ino : Inode} (hreach : Reach A s ino) {x y : ℕ}
    (hx : x < 2 ^ 32) (hy : y < 2 ^ 32) (hne : getBlockNum m s.blocks ino.root x ≠ 0) :
    (getBlockNum m s.blocks ino.root y = getBlockNum m s.blocks ino.root x → y = x) ∧
      getBlockNum m s.blocks ino.root x ∉ nodeBlocks m s.blocks ino.root.depth ino.root ∧
      ¬ A.Free s.alloc (getBlockNum m s.blocks ino.root x) := by
  obtain ⟨k, cs, bs, hsound⟩ := hreach.sound
  have hrep := hsound.rep
  have hdepth := hsound.depth
  have hnodup := hsound.owned.nodup
  have hfree := hsound.not_free hx hne
  rw [getBlockNum_eq hrep hx (by omega)] at hne hfree ⊢
  rw [getBlockNum_eq hrep hy (by omega), hrep.depth_eq, hrep.nodeBlocks_eq]
  have hcell : ∀ {z}, found cs z = found cs x → (z, found cs x, Kind.written) ∈ cs :=
    (found_eq_iff hrep.ascending (pos_of_ne_zero hne)).mp
  have hmem : found cs x ∈ targets cs := mem_map_of_mem (hcell rfl)
  refine ⟨fun heq => ?_, fun hnode => disjoint_of_nodup_append hnodup hnode hmem, hfree⟩
  exact congrArg Prod.fst
    (inj_on_of_nodup_map hnodup.of_append_right (hcell heq) (hcell rfl) rfl)

open SmallTree in
theorem mapped_once_grown : (∀ y < 2 ^ 32,
      getBlockNum volume (grown 5).1.blocks (grown 5).2.root y = 54 → y = 4) ∧
    54 ∉ nodeBlocks volume (grown 5).1.blocks (grown 5).2.root.depth (grown 5).2.root := by
  have hfind : getBlockNum volume (grown 5).1.blocks (grown 5).2.root 4 = 54 := by decide +kernel
  have honce := fun y hy => mapped_once (reach_grown le_rfl) (x := 4) (y := y) (by decide) hy
    (by rw [hfind]; decide)
  rw [hfind] at honce
  exact ⟨fun y hy => (honce y hy).1, (honce 0 (by decide)).2.1⟩

/-! ## The allocator of the mounted filesystem -/

section

open Ext2

variable {J : ℕ} {g : Geometry}

/-- The filesystem inside an open handle. -/
abbrev Opened (m : Mount) (g : Geometry) : Type :=
  { fs : Fs // ∃ fs0 T, Progress m g settledView fs0 T fs }

theorem opened_allocRun (L : Layout m J g) (got : ℕ → Bool) (fs : Opened m g) (goal wanted : ℕ) :
    (∃ fs0 T, Progress m g settledView fs0 T (allocRun m g got goal wanted true fs).2) ∧
      Took m g wanted fs (allocRun m g got goal wanted true fs) := by
  obtain ⟨fs, fs0, T, h⟩ := fs
  exact (h.allocRun got L kept_settledView goal wanted true).imp_left fun h => ⟨fs0, _, h⟩

/-- `ext2_alloc_run_hint` and `ext2_free_block`, as the extent code calls them. -/
def blockAllocator (L : Layout m J g) (got : ℕ → Bool) : Allocator m (Opened m g) where
  take fs goal wanted := ((allocRun m g got goal wanted true fs).1,
    ⟨_, (opened_allocRun L got fs goal wanted).1⟩)
  give fs b := ((freeBlock m g got fs b).1, ⟨(freeBlock m g got fs b).2, by
    obtain ⟨fs, fs0, T, h⟩ := fs
    exact ⟨fs0, _, h.freeBlock got L kept_settledView b⟩⟩)
  Free fs := FreeBlock m g fs
  free_readable {fs _} := by
    obtain ⟨fs, fs0, T, h⟩ := fs
    exact h.free_bounds
  take_count := (opened_allocRun L got _ _ _).2.count
  take_free hne := (opened_allocRun L got _ _ _).2.free hne _
  take_mono := (opened_allocRun L got _ _ _).2.mono _
  give_free {fs _ _} := by
    obtain ⟨fs, fs0, T, h⟩ := fs
    exact h.free_freeBlock got L

/-- **A mapped block is marked in use.** -/
theorem mapped_in_use (L : Layout m J g) (got : ℕ → Bool) {s : Store (Opened m g)}
    (hreach : Reach (blockAllocator L got) s ino) {x : ℕ} (hx : x < 2 ^ 32)
    (hne : getBlockNum m s.blocks ino.root x ≠ 0) :
    ¬ FreeBlock m g s.alloc (getBlockNum m s.blocks ino.root x) := by
  obtain ⟨k, cs, bs, hsound⟩ := hreach.sound
  exact hsound.not_free hx hne

end

end AvoryOS.Ext4
