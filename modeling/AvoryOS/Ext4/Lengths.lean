import AvoryOS.Ext4.Frame
import AvoryOS.Ext4.Trim

/-!
# The length field

The format counts a length of up to 32768 as written blocks, and a greater one as unwritten
blocks.  The code masks the field with `0x7FFF`, so it takes a length of exactly 32768 for an
empty extent; and a lookup reads at most four nodes below the root.  `followsFormat_iff` says that
lookup, freeing and truncation follow the format in every other tree.
-/

namespace AvoryOS.Ext4

open Bytes Ext3 Runs

variable {m : Mount}

/-! ## What the format asks -/

/-- The blocks given to `ext2_free_block`, which never fails. -/
def ledger (m : Mount) : Allocator m (List ℕ) where
  take := fun log _ _ => ((0, 0), log)
  give := fun log b => (true, log ++ [b])
  Free := fun _ _ => False
  free_readable := fun h => h.elim
  take_count := fun h => absurd rfl h
  take_free := fun h => absurd rfl h
  take_mono := fun h => h
  give_free := fun h => h.elim

theorem freed_ledger {log log' freed : List ℕ} (h : Freed (ledger m) log freed log') :
    log' = log ++ freed := by
  induction h with
  | nil => rw [List.append_nil]
  | cons give rest ih =>
    rw [ih]
    exact List.append_assoc _ _ _

theorem not_faulty_ledger : ¬ Faulty (ledger m) (fun _ => true) := by
  rintro (⟨_, _, -, h⟩ | ⟨_, h⟩)
  · exact Bool.noConfusion h
  · exact Bool.noConfusion h

/-- The block that the format says a lookup finds: 0 in holes and unwritten extents. -/
def mapped (cs : List (Cell Kind)) (x : ℕ) : ℕ :=
  match find cs x with
  | some (b, .written) => b
  | some (b, .longest) => b
  | _ => 0

/-- Lookup finds the written blocks, and what is dropped from the tree is freed once. -/
structure FollowsFormat (m : Mount) (s : Store (List ℕ)) (ino : Inode) (cs : List (Cell Kind))
    (bs : List ℕ) : Prop where
  lookup : ∀ x < 2 ^ 32, (getExtentRun m s.blocks ino.root x).1 = mapped cs x
  freeAll : ∃ freed, (freeAll (ledger m) (fun _ => true) s ino).1.alloc = s.alloc ++ freed ∧
    freed.Perm (targets cs ++ bs)
  truncate : ∀ newLen < 2 ^ 32, ∃ s' ino' k cs' bs' freed,
    truncate (ledger m) (fun _ => true) s ino newLen = some (s', ino') ∧
      Rep True False m s'.blocks k 0 (2 ^ 32) ino'.root cs' bs' ∧ cs'.Sublist cs ∧
      s'.alloc = s.alloc ++ freed ∧ (freed ++ (targets cs' ++ bs')).Perm (targets cs ++ bs)

/-! ## Targets -/

variable {d : ℕ → Image} {cs : List (Cell Kind)} {bs : List ℕ}

theorem Chain.forall_cells {E : Prop} {hi : ℕ} {idxs : List Index}
    {R : ℕ → ℕ → Node → List (Cell Kind) → List ℕ → Prop} {P : Cell Kind → Prop}
    (h : Chain E m d R hi idxs cs bs)
    (hR : ∀ {lo hi node cs bs}, R lo hi node cs bs → ∀ c ∈ cs, P c) : ∀ c ∈ cs, P c := by
  induction h with
  | nil => simp
  | cons read address max key exact child rest ih =>
    intro c hc
    exact (List.mem_append.mp hc).elim (hR child c) (ih c)

theorem Rep.target_pos {F E : Prop} {k lo hi : ℕ} {node : Node}
    (h : Rep F E m d k lo hi node cs bs) : ∀ c ∈ cs, 0 < c.2.1 := by
  induction k generalizing lo hi node cs bs with
  | zero =>
    obtain ⟨max, gen, exts, -, -, hleaf, -, rfl, -⟩ := h
    intro c hc
    obtain ⟨e, he, -, -, htarget⟩ := mem_leafCells.mp (mem_below.mp hc).1
    have hstart := (hleaf.ok e he).start
    rw [htarget]
    exact Nat.add_pos_left hstart _
  | succ k ih =>
    obtain ⟨max, gen, idxs, -, -, -, -, hchain⟩ := h
    exact hchain.forall_cells ih

/-! ## Where the code follows the format -/

section

variable {s : Store (List ℕ)} {ino : Inode} {k : ℕ}

theorem found_eq_mapped (hknown : Known cs) (x : ℕ) : found cs x = mapped cs x := by
  rw [found, mapped]
  cases hfind : find cs x with
  | none => rfl
  | some v =>
    obtain ⟨b, kind⟩ := v
    cases kind with
    | written => rfl
    | longest => exact absurd rfl (hknown _ (mem_of_find hfind))
    | unwritten => rfl

theorem mapped_of_mem {F E : Prop} {node : Node}
    (hrep : Rep F E m d k 0 (2 ^ 32) node cs bs) {c : Cell Kind} (hc : c ∈ cs) :
    mapped cs c.1 = if c.2.2 = .unwritten then 0 else c.2.1 := by
  have hfind : find cs c.1 = some c.2 := (find_eq_some hrep.ascending).mpr hc
  obtain ⟨x, b, kind⟩ := c
  rw [mapped, hfind]
  cases kind <;> rfl

/-- **Lookup finds the written blocks exactly in the trees it can read.** -/
theorem lookup_iff (hrep : Rep True False m s.blocks k 0 (2 ^ 32) ino.root cs bs) :
    (∀ x < 2 ^ 32, (getExtentRun m s.blocks ino.root x).1 = mapped cs x) ↔
      Known cs ∧ (k ≤ 4 ∨ ∀ c ∈ cs, c.2.2 ≠ .written) := by
  constructor
  swap
  · rintro ⟨hknown, hdepth⟩ x hx
    by_cases hk : k ≤ 4
    · rw [← found_eq_mapped hknown]
      exact getBlockNum_eq hrep hx hk
    refine (walk_deep hrep hx (by omega) _).trans ?_
    have hnot := hdepth.resolve_left hk
    rw [mapped]
    cases hfind : find cs x with
    | none => rfl
    | some v =>
      obtain ⟨b, kind⟩ := v
      have hmem := mem_of_find hfind
      cases kind with
      | written => exact absurd rfl (hnot _ hmem)
      | longest => exact absurd rfl (hknown _ hmem)
      | unwritten => rfl
  intro h
  have hlookup : ∀ c ∈ cs, getBlockNum m s.blocks ino.root c.1 =
      if c.2.2 = .unwritten then 0 else c.2.1 := by
    intro c hc
    rw [← mapped_of_mem hrep hc]
    exact h c.1 (hrep.bounds c hc).2
  by_cases hk : k ≤ 4
  · refine ⟨?_, .inl hk⟩
    intro c hc hlong
    have heq := hlookup c hc
    have hpos := hrep.target_pos c hc
    have hfind : find cs c.1 = some c.2 := (find_eq_some hrep.ascending).mpr hc
    rw [getBlockNum_eq hrep (hrep.bounds c hc).2 hk, found, hfind] at heq
    obtain ⟨x, b, kind⟩ := c
    dsimp only at hlong
    rw [hlong] at heq
    exact absurd heq hpos.ne
  have hnone : ∀ c ∈ cs, c.2.2 = .unwritten := by
    intro c hc
    by_contra hkind
    have heq := hlookup c hc
    have hpos := hrep.target_pos c hc
    rw [if_neg hkind] at heq
    exact absurd ((walk_deep hrep (hrep.bounds c hc).2 (by omega) _).symm.trans heq) hpos.ne
  refine ⟨?_, .inr ?_⟩
  · intro c hc hlong
    rw [hnone c hc] at hlong
    exact absurd hlong (by decide)
  · intro c hc hwritten
    rw [hnone c hc] at hwritten
    exact absurd hwritten (by decide)

theorem freeAll_ledger (hrep : Rep True False m s.blocks k 0 (2 ^ 32) ino.root cs bs)
    (hknown : Known cs) : ∃ freed,
      (freeAll (ledger m) (fun _ => true) s ino).1.alloc = s.alloc ++ freed ∧
        freed.Perm (targets cs ++ bs) := by
  rw [freeAll, hrep.depth_eq]
  rcases freeNode_spec (fun _ => true) hrep hknown s.alloc with
    ⟨-, freed, hfreed, hperm⟩ | ⟨-, hfault⟩
  · exact ⟨freed, freed_ledger hfreed, hperm⟩
  · exact absurd hfault not_faulty_ledger

theorem rep_empty (d : ℕ → Image) : Rep True False m d 0 0 (2 ^ 32) emptyRoot [] [] :=
  ⟨4, 0, [], rfl, by decide, LeafOk.nil m _ _, by simp, rfl, rfl⟩

theorem truncate_ledger (hext : ino.extents = true) (hok : RootOk ino.root)
    (hrep : Rep True False m s.blocks k 0 (2 ^ 32) ino.root cs bs)
    (hnodup : (targets cs ++ bs).Nodup) (hknown : Known cs) (newLen : ℕ) :
    ∃ s' ino' k cs' bs' freed,
      truncate (ledger m) (fun _ => true) s ino newLen = some (s', ino') ∧
        Rep True False m s'.blocks k 0 (2 ^ 32) ino'.root cs' bs' ∧ cs'.Sublist cs ∧
        s'.alloc = s.alloc ++ freed ∧ (freed ++ (targets cs' ++ bs')).Perm (targets cs ++ bs) := by
  by_cases hsize : ino.size ≤ newLen
  · refine ⟨s, { ino with size := newLen }, k, cs, bs, [], ?_, hrep, List.Sublist.refl _,
      (List.append_nil _).symm, List.Perm.refl _⟩
    rw [truncate, if_neg (by rw [hext]; decide), if_pos hsize]
  by_cases hzero : newLen = 0
  · obtain ⟨freed, hlog, hperm⟩ := freeAll_ledger hrep hknown
    refine ⟨_, (freeAll (ledger m) (fun _ => true) s ino).2, 0, [], [], freed, ?_, rep_empty _,
      List.nil_sublist _, hlog, ?_⟩
    · rw [truncate, if_neg (by rw [hext]; decide), if_neg hsize, if_pos hzero]
    · rw [targets_nil, List.append_nil, List.append_nil]
      exact hperm
  have hspec := truncate_spec (A := ledger m) (fun _ => true) hext hok hrep hknown hnodup
    (by omega) hzero
  cases hr : truncate (ledger m) (fun _ => true) s ino newLen with
  | none =>
    rw [hr] at hspec
    exact absurd hspec not_faulty_ledger
  | some r =>
    rw [hr] at hspec
    obtain ⟨k', bs', freed, cut⟩ := hspec
    refine ⟨r.1, r.2, k', _, bs', freed, rfl, cut.rep.forget False.elim,
      List.filter_sublist, ?_, cut.removal.perm⟩
    rw [freed_ledger cut.removal.freed, clearEnd_alloc]

/-- **Lookup, freeing and truncation follow the format exactly in the trees without an extent of
length 32768, of depth at most 4 or without written blocks.** -/
theorem followsFormat_iff (hext : ino.extents = true) (hok : RootOk ino.root)
    (hrep : Rep True False m s.blocks k 0 (2 ^ 32) ino.root cs bs)
    (hnodup : (targets cs ++ bs).Nodup) :
    FollowsFormat m s ino cs bs ↔ Known cs ∧ (k ≤ 4 ∨ ∀ c ∈ cs, c.2.2 ≠ .written) := by
  constructor
  · intro h
    exact (lookup_iff hrep).mp h.lookup
  intro h
  exact ⟨(lookup_iff hrep).mpr h, freeAll_ledger hrep h.1,
    fun newLen _ => truncate_ledger hext hok hrep hnodup h.1 newLen⟩

end

/-! ## Small trees -/

namespace SmallTree

def large : Mount := .plain 40000 (by decide)

def unfreed : Store (List ℕ) := ⟨fun _ => zero, []⟩

def longest : Extent := ⟨0, 0x8000, 20⟩

theorem rep_single {e : Extent} {n : ℕ} (hn : n = 2 ^ 32) (hok : ExtentOk m e) :
    Rep True False m unfreed.blocks 0 0 n (inode [e]).root (leafCells [e]) [] := by
  subst hn
  have hle : ∀ f ∈ [e], f.block + f.count ≤ 2 ^ 32 := by
    intro f hf
    rw [List.mem_singleton.mp hf]
    exact hok.stop.le
  refine ⟨4, 0, [e], rfl, by simp, leafOk_singleton hok, fun _ => hle, ?_, rfl⟩
  exact (below_leafCells hle).symm

end SmallTree

open SmallTree in
/-- An extent of 32768 written blocks is a hole to a lookup, and `ext4_extent_free_all` leaves
all its blocks allocated. -/
theorem longest_extent_lost :
    Rep True False large unfreed.blocks 0 0 (2 ^ 32) (inode [longest]).root
        (leafCells [longest]) [] ∧ mapped (leafCells [longest]) 5 = 25 ∧
      (getExtentRun large unfreed.blocks (inode [longest]).root 5).1 = 0 ∧
      (freeAll (ledger large) (fun _ => true) unfreed (inode [longest])).1.alloc = [] ∧
      ¬ FollowsFormat large unfreed (inode [longest]) (leafCells [longest]) [] := by
  have hok : ExtentOk large longest := by constructor <;> decide
  have hmapped : mapped (leafCells [longest]) 5 = 25 := by
    have hfind : find (leafCells [longest]) 5 = some (25, .longest) := by
      rw [leafCells_cons, find_append, find_cells_of_mem (by decide) (by decide)]
      rfl
    rw [mapped, hfind]
  refine ⟨rep_single rfl hok, hmapped, rfl, rfl, ?_⟩
  intro h
  have heq := h.lookup 5 (by decide)
  rw [hmapped] at heq
  exact absurd heq (by decide)

open SmallTree in
/-- A tree with ten unwritten blocks. -/
theorem followsFormat_preallocated :
    FollowsFormat volume unfreed (inode [preallocated]) (leafCells [preallocated]) [] := by
  refine (followsFormat_iff rfl ⟨by decide, ?_⟩ (rep_single rfl preallocated_ok) ?_).mpr ⟨?_, ?_⟩
  · exact leaf_fits (leafOk_singleton preallocated_ok) (by decide) (by decide) (by decide)
  · decide
  · unfold Known
    decide
  · exact .inl (by decide)

end AvoryOS.Ext4
