import AvoryOS.Ext4.Insert

/-!
# What an insertion leaves alone

A successful insertion of a run into a hole changes no other block, as long as the run is not
joined to a neighbour that is unwritten: the joined entry gets a length without the mark, so the
blocks of the neighbour read as written ones afterwards (`unwritten_mark_lost`).
`insert_frame_iff` says that this is the only way.
-/

namespace AvoryOS.Ext4

open Bytes Ext3 Runs

variable {m : Mount} {α : Type*} {A : Allocator m α}

/-- The tree of the inode maps the cells `cs` and lies in the blocks `bs`, which are in use. -/
structure TreeOk (A : Allocator m α) (s : Store α) (ino : Inode) (cs : List (Cell Kind))
    (bs : List ℕ) : Prop where
  extents : ino.extents = true
  root : RootOk ino.root
  rep : Rep True False m s.blocks ino.root.depth 0 (2 ^ 32) ino.root cs bs
  owned : Owned A s.alloc bs

/-- The inode has a well-formed extent tree. -/
def WellFormed (A : Allocator m α) (s : Store α) (ino : Inode) : Prop :=
  ∃ cs bs, TreeOk A s ino cs bs

/-- A written run of blocks of the volume. -/
structure RunFits (m : Mount) (e : Extent) : Prop where
  ok : ExtentOk m e
  short : e.len < 0x8000

def IsHole (m : Mount) (d : ℕ → Image) (root : Node) (e : Extent) : Prop :=
  ∀ x, e.block ≤ x → x < e.block + e.len → status m d root x = none

section

variable {s s' : Store α} {ino ino' : Inode} {o : Outcomes} {e : Extent} {cs : List (Cell Kind)}
  {bs : List ℕ}

theorem insert_depth (h : insert A o s ino e = (true, s', ino')) (hext : ino.extents = true) :
    ino.root.depth ≤ 2 := by
  rw [insert] at h
  split at h
  swap
  · simp at h
  rw [insertFrom] at h
  split at h
  · rename_i hroot
    rw [hroot]
    exact Nat.zero_le _
  rename_i max depth gen idxs hroot
  rw [hroot]
  change depth ≤ 2
  split at h
  · omega
  split at h
  · omega
  · simp at h

theorem TreeOk.hole (h : TreeOk A s ino cs bs) (hdepth : ino.root.depth ≤ 4) (hfits : RunFits m e)
    (hole : IsHole m s.blocks ino.root e) : RunOk m cs e := by
  refine ⟨hfits.ok, hfits.short, ?_⟩
  intro c hc
  by_contra hin
  have hcount := count_of_lt hfits.short
  have hx := (h.rep.bounds c hc).2
  have hnone := hole c.1 (by omega) (by omega)
  rw [status_eq h.rep hx hdepth, find_eq_none] at hnone
  exact hnone c hc rfl

theorem mem_of_joined {exts : List Extent} {n : Extent}
    (h : joinedLeft exts e = some n ∨ joinedRight exts e = some n) : n ∈ exts := by
  rw [← before_append_after e.block exts]
  rcases h with h | h
  · exact List.mem_append_left _ (List.mem_of_getLast? (Option.filter_eq_some_iff.mp h).1)
  · exact List.mem_append_right _ (List.mem_of_head? (Option.filter_eq_some_iff.mp h).1)

end

namespace EffectAt

variable {E : Prop} {a : α} {s' : Store α} {root' : Node} {exts exts' : List Extent} {e : Extent}
  {cs ws zs : List (Cell Kind)} {bs bs' fresh : List ℕ} {key h k : ℕ}

theorem mem_place_cells {c : Cell Kind} :
    c ∈ leafCells (place e exts) ↔ c ∈ e.run.cells ∨ c ∈ leafCells exts := by
  rw [mem_leafCells, mem_leafCells, Run.mem_cells]
  constructor
  · rintro ⟨f, hf, hc⟩
    rcases mem_place.mp hf with rfl | hf
    · exact .inl hc
    · exact .inr ⟨f, hf, hc⟩
  · rintro (hc | ⟨f, hf, hc⟩)
    · exact ⟨e, mem_place.mpr (.inl rfl), hc⟩
    · exact ⟨f, mem_place.mpr (.inr hf), hc⟩

section

variable (eff : EffectAt E A a s' root' exts e cs bs ws zs exts' key h k bs' fresh)
include eff

/-- **Joined to written neighbours only, the run adds its own cells** and no others. -/
theorem mem_iff (hclean : Clean exts e) {c : Cell Kind} :
    c ∈ ws ++ (below h (leafCells exts') ++ zs) ↔ c ∈ cs ∨ c ∈ e.run.cells ∧ c.1 < h := by
  rw [eff.inserted.leafCells_eq eff.site hclean, eff.cells]
  simp only [List.mem_append, mem_below, mem_place_cells]
  constructor
  · rintro (hc | ⟨hc | hc, hlt⟩ | hc)
    · exact .inl (.inl hc)
    · exact .inr ⟨hc, hlt⟩
    · exact .inl (.inr (.inl hc))
    · exact .inl (.inr (.inr hc))
  rintro ((hc | hc | hc) | ⟨hc, hlt⟩)
  · exact .inl hc
  · refine .inr (.inl ⟨.inr hc, ?_⟩)
    exact leafCells_lt eff.stop c hc
  · exact .inr (.inr hc)
  · exact .inr (.inl ⟨.inl hc, hlt⟩)

/-- A joined neighbour that is not a written one loses its first cell. -/
theorem not_mem (hasc : Ascending cs) {n : Extent}
    (hn : joinedLeft exts e = some n ∨ joinedRight exts e = some n) (hlen : 0x8000 ≤ n.len) :
    (n.block, n.start, n.kind) ∈ cs ∧
      (n.block, n.start, n.kind) ∉ ws ++ (below h (leafCells exts') ++ zs) := by
  have hmem := mem_of_joined hn
  have hok : ExtentOk m n := eff.site.leaf.ok n (mem_place.mpr (.inr hmem))
  have hcell : (n.block, n.start, n.kind) ∈ leafCells exts := by
    rw [mem_leafCells]
    refine ⟨n, hmem, le_rfl, ?_, ?_⟩
    · have hpos := hok.count_pos
      omega
    · rw [Nat.sub_self, Nat.add_zero]
  have hstop := eff.stop n hmem
  have hpos := hok.count_pos
  rw [eff.cells] at hasc ⊢
  obtain ⟨-, -, hcross⟩ := ascending_append.mp hasc
  refine ⟨List.mem_append_right _ (List.mem_append_left _ hcell), ?_⟩
  simp only [List.mem_append, mem_below]
  rintro (hc | ⟨hc, -⟩ | hc)
  · exact absurd (hcross _ hc _ (List.mem_append_left _ hcell)) (lt_irrefl _)
  · exact eff.inserted.not_mem eff.site hn hlen hc
  · have hge := eff.right _ hc
    omega

end

end EffectAt

/-! ## The frame -/

/-- **An insertion into a hole leaves every other block alone exactly when it joins the run to
written neighbours only.** -/
theorem insert_frame_iff {s s' : Store α} {ino ino' : Inode} {o : Outcomes} {e : Extent}
    (hwf : WellFormed A s ino) (hfits : RunFits m e) (hole : IsHole m s.blocks ino.root e)
    (h : insert A o s ino e = (true, s', ino')) : (∀ x < 2 ^ 32, x < e.block ∨ e.block + e.len ≤ x →
        status m s'.blocks ino'.root x = status m s.blocks ino.root x ∧
        getBlockNum m s'.blocks ino'.root x = getBlockNum m s.blocks ino.root x) ↔
      Clean (leafAt m s.blocks e.block 4 ino.root) e := by
  obtain ⟨cs, bs, htree⟩ := hwf
  have hdepth := insert_depth h htree.extents
  have hrun := htree.hole (by omega) hfits hole
  obtain ⟨ws, zs, exts', key, top, k, bs', fresh, eff⟩ :=
    insert_effect htree.root htree.extents htree.rep htree.owned hrun h
  have hasc := htree.rep.ascending
  have hasc' := eff.rep.ascending
  have hk := eff.depth
  constructor
  · intro hframe
    by_contra hnot
    obtain ⟨n, hn, hlen⟩ : ∃ n, (joinedLeft (leafAt m s.blocks e.block 4 ino.root) e = some n ∨
        joinedRight (leafAt m s.blocks e.block 4 ino.root) e = some n) ∧ 0x8000 ≤ n.len := by
      simpa [Clean] using hnot
    obtain ⟨hold, hnew⟩ := eff.not_mem hasc hn hlen
    have hx := (htree.rep.bounds _ hold).2
    have hout := hrun.hole _ hold
    rw [count_of_lt hrun.short] at hout
    have hsame := (hframe n.block hx hout).1
    rw [status_eq eff.rep hx (by omega), status_eq htree.rep hx (by omega),
      (find_eq_some hasc).mpr hold] at hsame
    exact hnew ((find_eq_some hasc').mp hsame)
  intro hclean x hx hout
  have hstatus : status m s'.blocks ino'.root x = status m s.blocks ino.root x := by
    rw [status_eq eff.rep hx (by omega), status_eq htree.rep hx (by omega)]
    refine find_congr hasc' hasc fun v => ?_
    rw [eff.mem_iff hclean]
    refine ⟨?_, .inl⟩
    rintro (hc | ⟨hc, -⟩)
    · exact hc
    have hin := Run.mem_cells.mp hc
    rw [Extent.run_first, Extent.run_stop, count_of_lt hrun.short] at hin
    omega
  refine ⟨hstatus, ?_⟩
  rw [getBlockNum_eq_status eff.rep hx (by omega), getBlockNum_eq_status htree.rep hx (by omega),
    hstatus]

/-! ## Small trees -/

theorem wellFormed_leaf {s : Store α} {ino : Inode} {exts : List Extent}
    (hext : ino.extents = true) (hroot : ino.root = .leaf 4 0 exts) (hlen : exts.length ≤ 4)
    (hleaf : LeafOk m 0 (2 ^ 32) exts) : WellFormed A s ino := by
  refine ⟨below (2 ^ 32) (leafCells exts), [], hext, ?_, ?_, List.nodup_nil, by simp⟩
  · rw [hroot]
    exact ⟨⟨Nat.succ_pos 3, le_rfl⟩, leaf_fits hleaf hlen (by decide) (by decide)⟩
  rw [hroot]
  refine ⟨4, 0, exts, rfl, hlen, hleaf, ?_, rfl, rfl⟩
  intro _ f hf
  exact (hleaf.ok f hf).stop.le

theorem leafOk_singleton {e : Extent} (hok : ExtentOk m e) : LeafOk m 0 (2 ^ 32) [e] := by
  refine ⟨ordered_cons.mpr ⟨hok.count_pos, Ordered.nil, by simp⟩, ?_, ?_⟩
  · intro f hf
    rw [List.mem_singleton.mp hf]
    exact hok
  intro f hf
  rw [List.mem_singleton.mp hf]
  have hstop := hok.stop
  exact ⟨Nat.zero_le _, by omega⟩

namespace SmallTree

def volume : Mount := .plain 100 (by decide)

def full : Allocator volume Unit where
  take := fun a _ _ => ((0, 0), a)
  give := fun a _ => (true, a)
  Free := fun _ _ => False
  free_readable := fun h => h.elim
  take_count := fun h => absurd rfl h
  take_free := fun h => absurd rfl h
  take_mono := fun h => h
  give_free := fun h => h.elim

def store : Store Unit := ⟨fun _ => zero, ()⟩

def inode (exts : List Extent) : Inode := ⟨0, 0, true, .leaf 4 0 exts⟩

def smooth : Outcomes :=
  ⟨⟨true, true⟩, true, true, true, true, true, true, true, true, true, true, ⟨true, true⟩, true,
    true, true, true, true, true, true⟩

/-- Ten blocks that are allocated and not written yet. -/
def preallocated : Extent := ⟨0, 0x8000 + 10, 20⟩

theorem preallocated_ok : ExtentOk volume preallocated := by
  constructor <;> decide

theorem wellFormed_preallocated : WellFormed full store (inode [preallocated]) :=
  wellFormed_leaf rfl rfl (by decide) (leafOk_singleton preallocated_ok)

end SmallTree

open SmallTree in
/-- A run that continues an unwritten extent makes its blocks written ones: block 5 reads as a
hole before, and as the stale contents of physical block 25 afterwards. -/
theorem unwritten_mark_lost :
    WellFormed full store (inode [preallocated]) ∧ RunFits volume ⟨10, 1, 30⟩ ∧
      IsHole volume store.blocks (inode [preallocated]).root ⟨10, 1, 30⟩ ∧
      insert full smooth store (inode [preallocated]) ⟨10, 1, 30⟩ =
        (true, store, inode [⟨0, 11, 20⟩]) ∧
      status volume store.blocks (inode [preallocated]).root 5 = some (25, .unwritten) ∧
      status volume store.blocks (inode [⟨0, 11, 20⟩]).root 5 = some (25, .written) ∧
      getBlockNum volume store.blocks (inode [preallocated]).root 5 = 0 ∧
      getBlockNum volume store.blocks (inode [⟨0, 11, 20⟩]).root 5 = 25 := by
  refine ⟨wellFormed_preallocated, ⟨by constructor <;> decide, by decide⟩, ?_, rfl, rfl, rfl, rfl,
    rfl⟩
  intro x h1 h2
  obtain rfl : x = 10 := by dsimp only at h1 h2; omega
  rfl

open SmallTree in
/-- A run apart from the unwritten extent leaves it alone. -/
theorem insert_frame_apart : Clean [preallocated] ⟨12, 1, 40⟩ ∧ ∀ x < 2 ^ 32, x < 12 ∨ 13 ≤ x →
      status volume store.blocks (inode [preallocated, ⟨12, 1, 40⟩]).root x =
          status volume store.blocks (inode [preallocated]).root x ∧
        getBlockNum volume store.blocks (inode [preallocated, ⟨12, 1, 40⟩]).root x =
          getBlockNum volume store.blocks (inode [preallocated]).root x := by
  have hole : IsHole volume store.blocks (inode [preallocated]).root ⟨12, 1, 40⟩ := by
    intro x h1 h2
    obtain rfl : x = 12 := by dsimp only at h1 h2; omega
    rfl
  have hclean : Clean [preallocated] ⟨12, 1, 40⟩ := by
    rintro n (hn | hn)
    · exact absurd hn (Option.some_ne_none n).symm
    · exact absurd hn (Option.some_ne_none n).symm
  exact ⟨hclean, (insert_frame_iff (o := smooth) wellFormed_preallocated
    ⟨by constructor <;> decide, by decide⟩ hole rfl).mpr hclean⟩

end AvoryOS.Ext4
