import AvoryOS.Ext4.Lengths

/-!
# Insertions that fail

A split writes the lower half of a full node before its upper half can be reached from the
parent, and nothing undoes that write.  When a later step fails, the upper half is lost:
`cutOff` is the range of blocks it stood for, and `insert_failure_iff` says that a failed
insertion loses nothing exactly when no block was mapped there.
-/

namespace AvoryOS.Ext4

open Bytes Ext3 Runs Function List

variable {m : Mount} {α : Type*} {A : Allocator m α} {E F : Prop} {d d' : ℕ → Image} {e : Extent}

/-! ## Lookups off the run -/

def Off (e : Extent) (x : ℕ) : Prop := x < e.block ∨ e.block + e.count ≤ x

/-- Lookups below the node return what the cells say, off the run.  Other than in `Rep` the first
key may lie above the first extents. -/
structure Finds (e : Extent) (m : Mount) (d : ℕ → Image) (reads lo hi : ℕ) (node : Node)
    (cs : List (Cell Kind)) (_bs : List ℕ) : Prop where
  ascending : Ascending cs
  bounds : ∀ c ∈ cs, lo ≤ c.1 ∧ c.1 < hi
  walk : ∀ x, Off e x → ∀ limit, (walk m d x reads node limit).1 = found cs x

variable {node : Node} {i : Index} {x : ℕ}

section

variable {reads lo hi max depth gen : ℕ} {exts : List Extent} {cs : List (Cell Kind)}
  {bs : List ℕ}

theorem walk_leaf (m : Mount) (d : ℕ → Image) (x reads limit : ℕ) :
    walk m d x reads (.leaf max gen exts) limit = scanLeaf m x limit exts := by
  cases reads <;> rfl

/-- A leaf whose extents stay in its range, but for the run. -/
theorem finds_leaf (hleaf : LeafOk m lo hi exts) (hstop : ∀ f ∈ exts, f.block + f.count ≤ hi ∨
      e.block < hi ∧ f.block + f.count ≤ e.block + e.count) :
    Finds e m d reads lo hi (.leaf max gen exts) (below hi (leafCells exts)) bs := by
  refine ⟨hleaf.ordered.ascending.filter _, ?_, ?_⟩
  · intro c hc
    obtain ⟨hmem, hlt⟩ := mem_below.mp hc
    obtain ⟨f, hf, hfirst, -⟩ := mem_leafCells.mp hmem
    exact ⟨(hleaf.range f hf).1.trans hfirst, hlt⟩
  intro x hx limit
  rw [walk_leaf, scanLeaf_eq hleaf]
  by_cases hlt : x < hi
  · exact found_of_find (find_below hlt).symm
  rw [found_of_none, found_of_none]
  · intro c hc hcx
    have hc := (mem_below.mp hc).2
    omega
  -- what lies past the range belongs to the run
  intro c hc hcx
  obtain ⟨f, hf, -, hc, -⟩ := mem_leafCells.mp hc
  have hstop := hstop f hf
  rw [Off] at hx
  omega

theorem finds_index {idxs : List Index} (hchain : Chain E m d (Finds e m d reads) hi idxs cs bs)
    (hne : idxs ≠ []) (hlo : lo ≤ next hi idxs) :
    Finds e m d (reads + 1) lo hi (.index max depth gen idxs) cs bs := by
  refine ⟨hchain.ascending fun hr => ⟨hr.ascending, hr.bounds⟩, ?_, ?_⟩
  · intro c hc
    have hb := hchain.bounds (fun hr => hr.bounds) c hc
    omega
  intro x hx limit
  rw [walk]
  obtain ⟨pre, i, post, hbest⟩ := exists_best x hne
  obtain ⟨node, cs', bs', hread, hfinds, hfind⟩ := hchain.find_child (fun hr => hr.bounds) hbest
  rw [hbest]
  dsimp only
  rw [hread]
  rw [hfinds.walk x hx]
  exact found_of_find hfind.symm

theorem Rep.finds {k : ℕ} (h : Rep True E m d k lo hi node cs bs) (hk : k ≤ reads) :
    Finds e m d reads lo hi node cs bs := by
  induction k generalizing lo hi node cs bs reads with
  | zero =>
    obtain ⟨max, gen, exts, rfl, -, hleaf, hfit, rfl, -⟩ := h
    exact finds_leaf hleaf fun f hf => .inl (hfit trivial f hf)
  | succ k ih =>
    obtain ⟨max, gen, idxs, rfl, -, hne, hlo, hchain⟩ := h
    obtain ⟨reads, rfl⟩ : ∃ r, reads = r + 1 := ⟨reads - 1, by omega⟩
    exact finds_index (hchain.forget id fun hr => ih hr (by omega)) hne hlo

/-- The choice of a child does not depend on the first key. -/
theorem best_first (x : ℕ) {i' : Index} (post : List Index) (hleaf : i'.leaf = i.leaf) :
    (best x (i' :: post)).map (fun t => t.2.1.leaf) =
      (best x (i :: post)).map fun t => t.2.1.leaf := by
  rw [best, best]
  split
  · simp [hleaf]
  split
  · rfl
  · simp [hleaf]

theorem walk_index (m : Mount) (d : ℕ → Image) (x : ℕ) (idxs : List Index) (limit : ℕ) :
    (walk m d x (reads + 1) (.index max depth gen idxs) limit).1 =
      (((best x idxs).map fun t => t.2.1.leaf).bind (readNode m d)).elim 0
        fun node => (walk m d x reads node (holeLimit x idxs limit)).1 := by
  rw [walk]
  cases best x idxs with
  | none => rfl
  | some t =>
    obtain ⟨pre, i, post⟩ := t
    dsimp only [Option.map_some, Option.bind_some]
    cases readNode m d i.leaf <;> rfl

theorem walk_limit (m : Mount) (d : ℕ → Image) (x : ℕ) (node : Node) (l l' : ℕ) :
    (walk m d x reads node l).1 = (walk m d x reads node l').1 := by
  induction reads generalizing node l l' with
  | zero =>
    cases node with
    | leaf max gen exts =>
      rw [walk_leaf, walk_leaf]
      induction exts with
      | nil => rfl
      | cons f exts ih =>
        rw [scanLeaf, scanLeaf]
        split
        · rfl
        split
        · rfl
        · exact ih
    | index max depth gen idxs => rfl
  | succ reads ih =>
    cases node with
    | leaf max gen exts =>
      have h := ih (.leaf max gen exts) l l'
      rw [walk_leaf, walk_leaf] at h ⊢
      exact h
    | index max depth gen idxs =>
      rw [walk_index, walk_index]
      cases ((best x idxs).map fun t => t.2.1.leaf).bind (readNode m d) with
      | none => rfl
      | some node => exact ih node _ _

/-- The first key of a node may as well be one that was not lowered. -/
theorem Finds.unlower {pre post : List Index} {max' depth' gen' : ℕ}
    (h : Finds e m d (reads + 1) lo hi
      (.index max depth gen (pre ++ lowerKey x i :: post)) cs bs)
    (hkey : pre = [] ∨ min i.block x = i.block) :
    Finds e m d (reads + 1) lo hi (.index max' depth' gen' (pre ++ i :: post)) cs bs := by
  refine ⟨h.ascending, h.bounds, ?_⟩
  intro y hy limit
  have hsame : (best y (pre ++ i :: post)).map (fun t => t.2.1.leaf) =
      (best y (pre ++ lowerKey x i :: post)).map fun t => t.2.1.leaf := by
    rcases hkey with rfl | hkey
    · exact best_first y post rfl
    · rw [lowerKey, hkey]
  rw [← h.walk y hy limit, walk_index, walk_index, hsame]
  cases ((best y (pre ++ lowerKey x i :: post)).map fun t => t.2.1.leaf).bind (readNode m d) with
  | none => rfl
  | some node => exact walk_limit m d y node _ _

end

/-! ## What remains -/

/-- Of the cells that lookups found, those outside the range are still found, and no others. -/
def Remains (m : Mount) (d : ℕ → Image) (root : Node) (cs : List (Cell Kind)) (cut : ℕ × ℕ) :
    Prop :=
  ∀ c ∈ cs, c.2.2 = .written → (getBlockNum m d root c.1 = c.2.1 ↔ ¬ (cut.1 ≤ c.1 ∧ c.1 < cut.2))

variable {cs : List (Cell Kind)}

theorem found_eq_iff (hasc : Ascending cs) {b : ℕ} (hb : 0 < b) :
    found cs x = b ↔ (x, b, Kind.written) ∈ cs := by
  rw [← find_eq_some hasc, found]
  cases find cs x with
  | none => simp; omega
  | some v =>
    obtain ⟨y, kind⟩ := v
    cases kind with
    | written => simp
    | longest => simp; omega
    | unwritten => simp; omega

variable {hi : ℕ} {bs : List ℕ}

theorem Finds.remains {root : Node} {cs' : List (Cell Kind)} {cut : ℕ × ℕ}
    (h : Finds e m d 4 0 hi root cs' bs) (hole : Hole cs e) (hpos : ∀ c ∈ cs, 0 < c.2.1)
    (hmem : ∀ c ∈ cs, c.2.2 = .written → (c ∈ cs' ↔ ¬ (cut.1 ≤ c.1 ∧ c.1 < cut.2))) :
    Remains m d root cs cut := by
  intro c hc hwritten
  rw [← hmem c hc hwritten, getBlockNum, getExtentRun, h.walk c.1 (hole c hc),
    found_eq_iff h.ascending (hpos c hc), ← hwritten]

theorem Finds.remains_all {root : Node} {cs' : List (Cell Kind)}
    (h : Finds e m d 4 0 hi root cs' bs) (hole : Hole cs e) (hpos : ∀ c ∈ cs, 0 < c.2.1)
    (hmem : ∀ c ∈ cs, c.2.2 = .written → c ∈ cs') : Remains m d root cs (0, 0) := by
  refine h.remains hole hpos ?_
  intro c hc hwritten
  refine ⟨fun _ => by simp, fun _ => hmem c hc hwritten⟩

/-! ## A leaf and its parent -/

variable {h : ℕ}

section

variable {reads k : ℕ} {pre post mid : List Index} {j : Index} {cs1 cs2 cs3 : List (Cell Kind)}
  {bs1 bs2 bs3 : List ℕ} {max gen : ℕ} {exts exts' : List Extent}

theorem Zip.addressable (z : Zip F E m d k hi pre i post node cs1 cs2 cs3 bs1 bs2 bs3) :
    Addressable i.leaf := (readNode_eq_some z.read).1.addressable z.address

theorem Zip.refind (z : Zip True False m d k hi pre i post node cs1 cs2 cs3 bs1 bs2 bs3)
    (hk : k ≤ reads) (hd : ∀ b ∈ bs1 ++ bs3, d' b = d b)
    (hmid : Chain False m d' (Finds e m d' reads) (next hi post) mid cs bs)
    (hkey : pre = [] ∨ next (next hi post) mid = i.block) :
    Chain False m d' (Finds e m d' reads) hi (pre ++ (mid ++ post)) (cs1 ++ (cs ++ cs3))
      (bs1 ++ (bs ++ bs3)) :=
  z.rebuild_of (fun hr hd => (hr.frame hd).finds hk) hd hmid hkey

/-- The key of the child is lowered, and nothing else changes. -/
theorem Zip.lower (d' : ℕ → Image) (reads : ℕ)
    (z : Zip True False m d k hi pre i post node cs1 cs2 cs3 bs1 bs2 bs3)
    (hk : k ≤ reads) (hd : ∀ b ∈ bs1 ++ i.leaf :: (bs2 ++ bs3), d' b = d b)
    (hkey : pre = [] ∨ min i.block x = i.block) :
    Chain False m d' (Finds e m d' reads) hi (pre ++ lowerKey x i :: post) (cs1 ++ (cs2 ++ cs3))
      (bs1 ++ i.leaf :: (bs2 ++ bs3)) := by
  have hread : readNode m d' i.leaf = some node := by
    rw [readNode_congr m (hd i.leaf (by simp))]
    exact z.read
  have hchild : Rep True False m d' k (min i.block x) (next hi post) node cs2 bs2 :=
    (z.child.frame fun b hb => hd b (by simp [hb])).widen (Nat.min_le_left _ _) le_rfl
  have hmid : Chain False m d' (Finds e m d' reads) (next hi post) [lowerKey x i] cs2
      (i.leaf :: bs2) :=
    .single hread z.address z.max (min_lt_of_left_lt z.key) False.elim (hchild.finds hk)
  refine z.refind hk ?_ hmid hkey
  intro b hb
  refine hd b ?_
  simp only [mem_append, mem_cons] at hb ⊢
  tauto

theorem Zip.remains {depth : ℕ} (hd : d' = d)
    (z : Zip True False m d k (2 ^ 32) pre i post node cs1 cs2 cs3 bs1 bs2 bs3) (hk : k ≤ 3)
    (hkey : pre = [] ∨ min i.block x = i.block) (hhole : Hole (cs1 ++ (cs2 ++ cs3)) e)
    (hpos : ∀ c ∈ cs1 ++ (cs2 ++ cs3), 0 < c.2.1) :
    Remains m d' (.index max depth gen (pre ++ lowerKey x i :: post))
      (cs1 ++ (cs2 ++ cs3)) (0, 0) :=
  (finds_index (z.lower d' 3 hk (fun b _ => congrFun hd b) hkey) (by simp)
    (Nat.zero_le _)).remains_all hhole hpos fun _ hc _ => hc

namespace Target

variable (t : Target False m d hi pre i post cs1 cs3 bs1 bs3 max gen exts e)
include t

/-- The leaf has other entries; `d'` is otherwise unchanged around it. -/
theorem relabel (d' : ℕ → Image) (reads : ℕ) (hd : ∀ b ∈ bs1 ++ bs3, d' b = d b)
    (hread : readNode m d' i.leaf = some (.leaf max gen exts'))
    (hleaf : LeafOk m (min i.block e.block) (next hi post) exts')
    (hstop : ∀ f ∈ exts', f.block + f.count ≤ next hi post ∨
      f.block + f.count ≤ e.block + e.count) :
    Chain False m d' (Finds e m d' reads) hi (pre ++ lowerKey e.block i :: post)
      (cs1 ++ (below (next hi post) (leafCells exts') ++ cs3)) (bs1 ++ i.leaf :: bs3) := by
  have hlt := t.lt
  have hmid : Chain False m d' (Finds e m d' reads) (next hi post) [lowerKey e.block i]
      (below (next hi post) (leafCells exts')) [i.leaf] := by
    refine .single hread t.zip.address t.zip.max (min_lt_of_right_lt hlt) False.elim ?_
    exact finds_leaf hleaf fun f hf => (hstop f hf).imp_right fun h => ⟨hlt, h⟩
  exact t.zip.refind (Nat.zero_le _) hd hmid t.key

theorem relink (d' : ℕ → Image) (reads : ℕ) {x y : Extent} {xs ys : List Extent}
    (hd : ∀ b ∈ bs1 ++ bs3, d' b = d b)
    (hv : Halves m (min i.block e.block) (next hi post) max (place e exts) x xs y ys)
    (hread : readNode m d' i.leaf = some (.leaf max gen (x :: xs)))
    (hreadj : readNode m d' j.leaf = some (.leaf (blockMax m) gen (y :: ys)))
    (hjaddr : j.leaf < 2 ^ 48) (hj : j.block = y.block) :
    Chain False m d' (Finds e m d' reads) hi (pre ++ lowerKey e.block i :: j :: post)
      (cs1 ++ ((leafCells (x :: xs) ++ below (next hi post) (leafCells (y :: ys))) ++ cs3))
      (bs1 ++ ([i.leaf, j.leaf] ++ bs3)) := by
  have hlt := t.lt
  have hbm := blockMax_lt m
  have hself : below y.block (leafCells (x :: xs)) = leafCells (x :: xs) := below_leafCells hv.stop
  have hlow : Chain False m d' (Finds e m d' reads) (next (next hi post) [j]) [lowerKey e.block i]
      (below y.block (leafCells (x :: xs))) [i.leaf] := by
    rw [next, hj]
    refine .single hread t.zip.address t.zip.max hv.key False.elim ?_
    exact finds_leaf hv.lower fun f hf => .inl (hv.stop f hf)
  have hup : Chain False m d' (Finds e m d' reads) (next hi post) [j]
      (below (next hi post) (leafCells (y :: ys))) [j.leaf] := by
    refine .single hreadj hjaddr ⟨by change 0 < blockMax m; omega, le_rfl⟩ (hj ▸ hv.lt)
      False.elim ?_
    rw [hj]
    refine finds_leaf hv.upper ?_
    intro f hf
    have hmem : f ∈ place e exts := by
      rw [hv.all]
      exact mem_append_right _ hf
    rcases mem_place.mp hmem with rfl | hmem
    · exact .inr ⟨hlt, le_rfl⟩
    · exact .inl (t.stop f hmem)
  have hmid := hlow.append hup
  rw [hself] at hmid
  exact t.zip.refind (Nat.zero_le _) hd hmid t.key

end Target

end

/-! ## What a split has written -/

/-- The split of the inner node `b` got as far as writing the lower half. -/
def indexHalved (A : Allocator m α) (o : Outcomes) (a : α) (b : ℕ) : Prop :=
  o.indexList ∧ (A.take a (b + 1) 1).1.1 ≠ 0 ∧ o.newIndexBuffer ∧ o.lowerIndexWrite

instance (o : Outcomes) (a : α) (b : ℕ) : Decidable (indexHalved A o a b) :=
  inferInstanceAs (Decidable (_ ∧ _ ∧ _ ∧ _))

def upperIndexKey (all : List Index) : ℕ :=
  ((all.drop (all.length / 2)).head?.map Index.block).getD 0

variable {all : List Extent} {j : Index}

section

variable {o : Outcomes} {s s' : Store α} {ino ino' : Inode} {b max gen : ℕ} {image : Image}

theorem halveLeaf_none (h : halveLeaf A o s b image max gen all = (s', none)) :
    (¬ leafHalved A o s.alloc b ∧ s'.blocks = s.blocks) ∨
      (leafHalved A o s.alloc b ∧ o.upperLeafWrite = false ∧
        s'.blocks = update s.blocks b
          (encode image (.leaf max gen (all.take (all.length / 2))))) := by
  dsimp only [halveLeaf] at h
  split_ifs at h <;> cases h <;> simp_all [leafHalved, writeImage, release]

theorem growRoot_false {g : GrowOutcomes} (h : growRoot A g s ino = (false, s', ino')) :
    s'.blocks = s.blocks ∧ ino' = ino := by
  dsimp only [growRoot] at h
  split_ifs at h <;> cases h <;> exact ⟨rfl, rfl⟩

/-- A failed `ext4_extent_add_root_index` may have grown the root. -/
theorem addRootIndex_false (h : addRootIndex A o s ino j = (false, s', ino')) :
    (s'.blocks = s.blocks ∧ ino'.root = ino.root) ∨
      ∃ nb, A.Free s.alloc nb ∧
        s'.blocks = update s.blocks nb (encode zero (ino.root.withMax (blockMax m))) ∧
        ino'.root = .index 4 (ino.root.depth + 1) ino.root.generation
          [⟨ino.root.firstLogical, nb⟩] := by
  rw [addRootIndex] at h
  split at h
  · cases h
    exact .inl ⟨rfl, rfl⟩
  split at h
  · simp at h
  split at h
  · cases h
    exact .inl ⟨rfl, rfl⟩
  dsimp only at h
  generalize hg : growRoot A o.growIndex s ino = g at h
  split at h
  · rename_i htrue
    have heq : g.2 = (s', ino') := by
      repeat' split at h
      all_goals first
        | exact (Prod.mk.inj h).2
        | simp at h
    obtain ⟨ok, t⟩ := g
    dsimp only at htrue heq
    rw [htrue, heq] at hg
    obtain ⟨nb, hgrown, hblocks, rfl⟩ := growRoot_true hg
    exact .inr ⟨nb, hgrown.free_single, hblocks, rfl⟩
  rename_i hfalse
  obtain ⟨ok, t⟩ := g
  obtain rfl : ok = false := by simpa using hfalse
  rw [h] at hg
  obtain ⟨hblocks, rfl⟩ := growRoot_false hg
  exact .inl ⟨hblocks, rfl⟩

theorem splitIndex_false {idxs : List Index}
    (h : splitIndex A o s ino b image max gen idxs j = (false, s', ino')) :
    ino' = ino ∧ ((¬ indexHalved A o s.alloc b ∧ s'.blocks = s.blocks) ∨
      (indexHalved A o s.alloc b ∧ ∃ nb, A.Free s.alloc nb ∧ ∀ x, x ≠ nb →
        s'.blocks x = update s.blocks b (encode image (.index max 1 gen
          ((placeIndex j idxs).take ((placeIndex j idxs).length / 2)))) x)) := by
  dsimp only [splitIndex] at h
  by_cases hh : indexHalved A o s.alloc b
  swap
  · suffices hs : s'.blocks = s.blocks ∧ ino' = ino from ⟨hs.2, .inl ⟨hh, hs.1⟩⟩
    rw [indexHalved] at hh
    split_ifs at h <;> try cases h
    all_goals simp_all [release]
  have hfree := (Grown.take hh.2.1).free_single
  obtain ⟨hlist, hfirst, hboth⟩ := id hh
  rw [if_neg hfirst, if_pos (Bool.and_eq_true_iff.mpr hboth)] at h
  suffices hs : ino' = ino ∧ ∀ x, x ≠ (A.take s.alloc (b + 1) 1).1.1 → s'.blocks x = _ from
    ⟨hs.1, .inr ⟨hh, _, hfree, hs.2⟩⟩
  split_ifs at h
  · split at h
    · split at h <;> cases h
      exact ⟨rfl, fun x hx => update_of_ne hx ..⟩
    · cases h
      exact ⟨rfl, fun x hx => update_of_ne hx ..⟩
  · cases h
    exact ⟨rfl, fun x hx => rfl⟩

end

/-! ## The range that is cut off -/

/-- The range cut off by a failed insertion below a root of depth 1. -/
def cutBelow1 (A : Allocator m α) (o : Outcomes) (s : Store α) (idxs : List Index) (e : Extent) :
    ℕ × ℕ :=
  match best e.block idxs with
  | none => (0, 0)
  | some (_, i, post) =>
    match readNode m s.blocks i.leaf with
    | some (.leaf max _ exts) =>
      if (o.leafBuffer ∧ o.leafRead) ∧ insertLeafEntry max exts e = .full ∧
          leafHalved A o s.alloc i.leaf then
        (upperKey (place e exts), next (2 ^ 32) post)
      else (0, 0)
    | _ => (0, 0)

/-- The range cut off by a failed insertion below a root of depth 2: the upper half of the leaf,
or that of the inner node when it was split as well. -/
def cutBelow2 (A : Allocator m α) (o : Outcomes) (s : Store α) (rootIdxs : List Index)
    (e : Extent) : ℕ × ℕ :=
  match best e.block rootIdxs with
  | none => (0, 0)
  | some (_, p, rootPost) =>
    match readNode m s.blocks p.leaf with
    | some (.index max _ _ idxs) =>
      match best e.block idxs with
      | none => (0, 0)
      | some (pre, i, post) =>
        match readNode m s.blocks i.leaf with
        | some (.leaf leafMax _ exts) =>
          if (o.indexBuffer ∧ o.indexRead) ∧ (o.leafBuffer ∧ o.leafRead) ∧
              insertLeafEntry leafMax exts e = .full ∧ leafHalved A o s.alloc i.leaf then
            let t := A.take s.alloc (i.leaf + 1) 1
            if o.upperLeafWrite ∧ max ≤ idxs.length ∧ indexHalved A o t.2 p.leaf then
              (upperIndexKey (placeIndex ⟨upperKey (place e exts), t.1.1⟩
                (pre ++ lowerKey e.block i :: post)), next (2 ^ 32) rootPost)
            else (upperKey (place e exts), next (next (2 ^ 32) rootPost) post)
          else (0, 0)
        | _ => (0, 0)
    | _ => (0, 0)

/-- The range of blocks that a failed insertion cuts off. -/
def cutOff (A : Allocator m α) (o : Outcomes) (s : Store α) (root : Node) (e : Extent) : ℕ × ℕ :=
  match root with
  | .leaf _ _ _ => (0, 0)
  | .index _ depth _ idxs =>
    if depth = 1 then cutBelow1 A o s idxs e
    else if depth = 2 then cutBelow2 A o s idxs e
    else (0, 0)

theorem mem_between {ws xs xs' zs : List (Cell Kind)} (cut : ℕ × ℕ) {P : Cell Kind → Prop}
    (hws : ∀ c ∈ ws, c.1 < cut.1) (hzs : ∀ c ∈ zs, cut.2 ≤ c.1)
    (h : ∀ c ∈ xs, P c → (c ∈ xs' ↔ ¬ (cut.1 ≤ c.1 ∧ c.1 < cut.2))) :
    ∀ c ∈ ws ++ (xs ++ zs), P c → (c ∈ ws ++ (xs' ++ zs) ↔ ¬ (cut.1 ≤ c.1 ∧ c.1 < cut.2)) := by
  intro c hc hP
  simp only [mem_append] at hc ⊢
  rcases hc with hc | hc | hc
  · have hlt := hws c hc
    exact ⟨fun _ => by omega, fun _ => .inl hc⟩
  · constructor
    · rintro (hc' | hc' | hc')
      · have hlt := hws c hc'
        omega
      · exact (h c hc hP).mp hc'
      · have hge := hzs c hc'
        omega
    · intro hout
      exact .inr (.inl ((h c hc hP).mpr hout))
  · have hge := hzs c hc
    exact ⟨fun _ => by omega, fun _ => .inr (.inr hc)⟩

variable {key : ℕ}

section

variable {pre post : List Index} {cs1 cs3 : List (Cell Kind)} {bs1 bs3 : List ℕ} {max gen : ℕ}
  {exts : List Extent} {x y : Extent} {xs ys : List Extent}

theorem Halves.below_eq (hv : Halves m key h max all x xs y ys) :
    below h (leafCells (x :: xs)) = leafCells (x :: xs) := by
  refine below_eq_self ?_
  intro c hc
  obtain ⟨f, hf, -, hc, -⟩ := mem_leafCells.mp hc
  have hle := hv.stop f hf
  have hlt := hv.lt
  omega

theorem Halves.upperKey_eq (hv : Halves m key h max all x xs y ys) : upperKey all = y.block := by
  rw [upperKey, hv.drop]
  rfl

theorem Halves.mem_or (hv : Halves m key h max (place e exts) x xs y ys)
    {c : Cell Kind} (hc : c ∈ leafCells exts) :
    (c ∈ leafCells (x :: xs) ∧ c.1 < y.block) ∨ (c ∈ leafCells (y :: ys) ∧ y.block ≤ c.1) := by
  have hmem : c ∈ leafCells (place e exts) := EffectAt.mem_place_cells.mpr (.inr hc)
  rw [hv.all, leafCells_append, mem_append] at hmem
  refine hmem.imp (fun hmem => ⟨hmem, ?_⟩) fun hmem => ⟨hmem, ?_⟩
  · obtain ⟨f, hf, -, hlt, -⟩ := mem_leafCells.mp hmem
    have hle := hv.stop f hf
    omega
  · obtain ⟨f, hf, hle, -⟩ := mem_leafCells.mp hmem
    have hge := (hv.upper.range f hf).1
    omega

namespace Target

variable (t : Target False m d hi pre i post cs1 cs3 bs1 bs3 max gen exts e)
include t

theorem left_lt_min : ∀ c ∈ cs1, c.1 < min i.block e.block := by
  intro c hc
  have h1 := t.left c hc
  have h2 := t.zip.sides.1 c hc
  omega

/-- Without its upper half, the leaf has lost the cells of the range. -/
theorem halved_mem
    (hv : Halves m (min i.block e.block) (next hi post) max (place e exts) x xs y ys) :
    ∀ c ∈ leafCells exts, (c ∈ below (next hi post) (leafCells (x :: xs)) ↔
        ¬ (y.block ≤ c.1 ∧ c.1 < next hi post)) := by
  intro c hc
  have hlt : c.1 < next hi post := leafCells_lt t.stop c hc
  rw [hv.below_eq]
  rcases hv.mem_or hc with ⟨hmem, hlow⟩ | ⟨-, hge⟩
  · exact ⟨fun _ => by omega, fun _ => hmem⟩
  constructor
  · intro hmem
    obtain ⟨f, hf, -, hc, -⟩ := mem_leafCells.mp hmem
    have hle := hv.stop f hf
    omega
  · intro hnot
    exact absurd ⟨hge, hlt⟩ hnot

/-- The leaf with its lower half, as a child of its parent. -/
theorem halved (d' : ℕ → Image) (reads : ℕ) {image : Image}
    (hv : Halves m (min i.block e.block) (next hi post) max (place e exts) x xs y ys)
    (hd : ∀ b ∈ bs1 ++ bs3, d' b = d b)
    (hleaf : d' i.leaf = encode image (.leaf max gen (x :: xs))) :
    Chain False m d' (Finds e m d' reads) hi (pre ++ lowerKey e.block i :: post)
      (cs1 ++ (below (next hi post) (leafCells (x :: xs)) ++ cs3)) (bs1 ++ i.leaf :: bs3) := by
  obtain ⟨hreadable, -, -, hmax16, hgen, -⟩ := readNode_eq_some t.zip.read
  have hlt := hv.lt
  refine t.relabel d' reads hd ?_ ?_ ?_
  · exact readNode_encode hreadable (leaf_fits hv.lower hv.lower_len hmax16 hgen) hleaf
  · refine hv.lower.mono ?_
    intro f hf
    have hrange := hv.lower.range f hf
    omega
  · intro f hf
    have hle := hv.stop f hf
    omega

theorem halves (hfull : max ≤ exts.length) :
    ∃ x xs y ys, Halves m (min i.block e.block) (next hi post) max (place e exts) x xs y ys :=
  place_halves t.zip.max.1 (le_antisymm t.len hfull) t.site.leaf

end Target

end

/-! ## Below a root of depth 1 -/

variable {lo : ℕ} {exts : List Extent}

section

variable {o : Outcomes} {s s' : Store α} {ino ino' : Inode} {max gen : ℕ}
  {idxs : List Index}

/-- A root that has grown has the old one for its only child. -/
theorem finds_grown {nb max' gen' : ℕ}
    (hchain : Chain False m d (Finds e m d 2) (2 ^ 32) idxs cs bs) (hne : idxs ≠ [])
    (hread : readNode m d nb = some (.index max 1 gen idxs)) (haddr : nb < 2 ^ 48)
    (hmax : 0 < max ∧ max ≤ blockMax m) :
    Finds e m d 4 0 (2 ^ 32) (.index max' 2 gen' [⟨next (2 ^ 32) idxs, nb⟩]) cs (nb :: bs) := by
  have hlt : next (2 ^ 32) idxs < 2 ^ 32 := by
    obtain ⟨i, idxs, rfl⟩ := exists_cons_of_ne_nil hne
    exact (hchain.keys i mem_cons_self).2
  have hchild : Finds e m d 3 (next (2 ^ 32) idxs) (2 ^ 32) (.index max 1 gen idxs) cs bs :=
    finds_index hchain hne le_rfl
  have hsingle : Chain False m d (Finds e m d 3) (2 ^ 32) [⟨next (2 ^ 32) idxs, nb⟩] cs
      (nb :: bs) := .single hread haddr hmax hlt False.elim hchild
  exact finds_index hsingle (by simp) (Nat.zero_le _)

theorem insertBelow1_fails (hok : RootOk (.index max 1 gen idxs))
    (hrep : Rep True False m s.blocks 1 0 (2 ^ 32) (.index max 1 gen idxs) cs bs)
    (hown : Owned A s.alloc bs) (hrun : RunOk m cs e)
    (h : insertBelow1 A o s ino max gen idxs e = (false, s', ino')) :
    Remains m s'.blocks ino'.root cs (cutBelow1 A o s idxs e) := by
  have hpos := hrep.target_pos
  obtain ⟨max', gen', idxs', hnode, hlen, hne, -, hchain⟩ := hrep
  obtain ⟨rfl, -, rfl, rfl⟩ := Node.index.inj hnode
  obtain ⟨-, hlen16, hmax16, -, -, hgen, -⟩ := hok
  have hstop32 := hrun.ok.stop
  have hhole := hrun.hole
  have hbm := blockMax_lt m
  rw [insertBelow1] at h
  obtain ⟨pre, i, post, hbest⟩ := exists_best e.block hne
  obtain ⟨rfl, -, -⟩ := best_eq_some hbest
  obtain ⟨node, cs1, cs2, cs3, bs1, bs2, bs3, rfl, rfl, z⟩ := hchain.zip
  obtain ⟨lmax, lgen, exts, rfl, rfl, rfl, t⟩ := z.target hbest (by omega) hrun.of_append
  -- the key is lowered, and that is all
  have hsame : ∀ {d' : ℕ → Image}, d' = s.blocks →
      Remains m d' (.index max 1 gen (pre ++ lowerKey e.block i :: post))
        (cs1 ++ (leafCells exts ++ cs3)) (0, 0) :=
    fun hd' => z.remains hd' (Nat.zero_le _) t.key hhole hpos
  rw [cutBelow1, hbest]
  dsimp only
  rw [z.read]
  rw [hbest] at h
  dsimp only at h ⊢
  split at h
  swap
  · rename_i hcond
    rw [if_neg fun hh => hcond ⟨z.addressable, hh.1.1, hh.1.2, (readNode_eq_some z.read).1⟩]
    obtain ⟨-, rfl, rfl⟩ := triple_inj h
    exact hsame rfl
  rename_i hcond
  have hcalls : o.leafBuffer = true ∧ o.leafRead = true := ⟨hcond.2.1, hcond.2.2.1⟩
  rw [leafOrReset_eq z.read t.len z.max.2] at h
  split at h
  · rename_i hover
    rw [if_neg (by rw [hover]; simp)]
    obtain ⟨-, rfl, rfl⟩ := triple_inj h
    exact hsame rfl
  · rename_i exts' hdone
    rw [if_neg (by rw [hdone]; simp)]
    split at h
    · simp at h
    · obtain ⟨-, rfl, rfl⟩ := triple_inj h
      exact hsame rfl
  -- the leaf is full
  rename_i hfull
  obtain ⟨hlenfull, -⟩ := insertLeafEntry_full hfull
  obtain ⟨x, xs, y, ys, hv⟩ := t.halves hlenfull
  have hcut : ∀ c ∈ cs1 ++ (leafCells exts ++ cs3), c.2.2 = .written →
      (c ∈ cs1 ++ (below (next (2 ^ 32) post) (leafCells (x :: xs)) ++ cs3) ↔
        ¬ (upperKey (place e exts) ≤ c.1 ∧ c.1 < next (2 ^ 32) post)) := by
    rw [hv.upperKey_eq]
    refine mem_between (y.block, next (2 ^ 32) post) ?_ z.sides.2 ?_
    · intro c hc
      exact (t.left_lt_min c hc).trans hv.key
    · intro c hc _
      exact t.halved_mem hv c hc
  rw [splitLeaf] at h
  split at h
  · rename_i s1 hhalf
    obtain ⟨-, rfl, rfl⟩ := triple_inj h
    rcases halveLeaf_none hhalf with ⟨hnot, hblocks⟩ | ⟨hhalved, -, hblocks⟩
    · rw [if_neg fun hh => hnot hh.2.2]
      exact hsame hblocks
    rw [if_pos ⟨hcalls, hfull, hhalved⟩]
    rw [hv.take] at hblocks
    have hnew := t.halved s1.blocks 3 hv (fun b hb => by
      rw [hblocks, update_of_ne (nodup_middle hown.nodup hb)])
      (by rw [hblocks, update_self])
    exact (finds_index hnew (by simp) (Nat.zero_le _)).remains hhole hpos hcut
  rename_i s1 j hhalf
  obtain ⟨hhalved, -, -, -, hgrown, hblocks⟩ := halveLeaf_some hhalf
  rw [hv.take] at hblocks
  rw [if_pos ⟨hcalls, hfull, hhalved⟩]
  have hne : ∀ {b}, b ∈ bs1 ++ i.leaf :: bs3 → b ≠ j.leaf :=
    hown.ne_of_free hgrown.free_single
  have hblocksb : ∀ b ∈ bs1 ++ bs3, s1.blocks b = s.blocks b := by
    intro b hb
    rw [hblocks, update_of_ne (hne (mem_around hb)), update_of_ne (nodup_middle hown.nodup hb)]
  have hleaf : s1.blocks i.leaf = encode (s.blocks i.leaf) (.leaf lmax lgen (x :: xs)) := by
    rw [hblocks, update_of_ne (hne (by simp)), update_self]
  generalize hadd : addRootIndex A o s1 { ino with
    root := .index max 1 gen (pre ++ lowerKey e.block i :: post) } j = r at h
  obtain ⟨ok, s2, ino2⟩ := r
  dsimp only at h
  split at h
  · simp at h
  rename_i hfalse
  obtain rfl : ok = false := by simpa using hfalse
  obtain ⟨-, rfl, rfl⟩ := triple_inj h
  change Remains m s2.blocks _ _ _
  rcases addRootIndex_false hadd with ⟨hblocks2, hroot⟩ | ⟨nb, hnb, hblocks2, hroot⟩
  · rw [hroot, hblocks2]
    have hnew := t.halved s1.blocks 3 hv hblocksb hleaf
    exact (finds_index hnew (by simp) (Nat.zero_le _)).remains hhole hpos hcut
  -- the root has grown
  have hbnb : ∀ {b}, b ∈ bs1 ++ i.leaf :: bs3 → b ≠ nb := hown.ne_of_free (hgrown.mono nb hnb)
  have hnew := t.halved s2.blocks 2 hv
    (fun b hb => by rw [hblocks2, update_of_ne (hbnb (mem_around hb)), hblocksb b hb])
    (by rw [hblocks2, update_of_ne (hbnb (by simp)), hleaf])
  obtain ⟨hreadable, haddrnb⟩ := A.free_readable hnb
  have hreadnb : readNode m s2.blocks nb = some (.index (blockMax m) 1 gen
      (pre ++ lowerKey e.block i :: post)) := by
    refine readNode_encode hreadable ⟨by simpa using hlen16, hbm.2, by decide,
      by decide, hgen, hnew.fits le_rfl⟩ (by rw [hblocks2, update_self]; rfl)
  have hfirst : Node.firstLogical (.index max 1 gen (pre ++ lowerKey e.block i :: post)) =
      next (2 ^ 32) (pre ++ lowerKey e.block i :: post) := by
    cases pre <;> rfl
  rw [hroot, hfirst]
  exact (finds_grown hnew (by simp) hreadnb haddrnb ⟨by omega, le_rfl⟩).remains hhole hpos hcut

/-! ## Below a root of depth 2 -/

/-- Written blocks stay written when the run is joined on the right, or not at all. -/
theorem Inserted.mem_written {exts' : List Extent} (hsite : Fresh m lo h exts e)
    (hins : Inserted exts e exts') (hleft : joinedLeft exts e = none) {c : Cell Kind}
    (hc : c ∈ leafCells exts) (hwritten : c.2.2 = .written) : c ∈ leafCells exts' := by
  cases hins with
  | placed => exact EffectAt.mem_place_cells.mpr (.inr hc)
  | @right r rest hleft hright hafter hjoin =>
    by_cases hr : r.len < 0x8000
    · have hclean : Clean exts e := by
        rintro n (hn | hn)
        · rw [hleft] at hn
          simp at hn
        rw [hright] at hn
        rw [← Option.some.inj hn]
        exact hr
      rw [(Inserted.right hleft hright hafter hjoin).leafCells_eq hsite hclean]
      exact EffectAt.mem_place_cells.mpr (.inr hc)
    -- none of the blocks of the neighbour is written
    obtain ⟨f, hf, hrest⟩ := mem_leafCells.mp hc
    have hfr : f ≠ r := by
      rintro rfl
      rw [hrest.2.2, kind_eq_written] at hwritten
      exact hr hwritten
    refine mem_leafCells.mpr ⟨f, ?_, hrest⟩
    rw [← before_append_after e.block exts, hafter] at hf
    simp only [mem_append, mem_cons] at hf ⊢
    tauto
  | left hleft' => rw [hleft] at hleft'; simp at hleft'
  | bridge hleft' => rw [hleft] at hleft'; simp at hleft'

theorem joinedLeft_eq_none (hleaf : LeafOk m lo h exts)
    (hlt : e.block ≤ lo) : joinedLeft exts e = none := by
  have hbefore : before e.block exts = [] := by
    cases exts with
    | nil => rfl
    | cons f exts =>
      have hf := (hleaf.range f mem_cons_self).1
      simp [before]
      omega
  rw [joinedLeft, hbefore]
  rfl

/-- The entries of a full inner node in the lower half, and the cells they keep. -/
theorem finds_lower (max gen : ℕ) {all : List Index}
    (hchain : Chain False m d (Finds e m d 2) hi all cs bs)
    (hlen : 2 ≤ all.length) (hlo : lo ≤ next hi all) :
    ∃ cs' bs', Finds e m d 3 lo hi (.index max 1 gen (all.take (all.length / 2))) cs' bs' ∧
      next hi all ≤ upperIndexKey all ∧ (∀ c ∈ cs, (c ∈ cs' ↔ c.1 < upperIndexKey all)) := by
  obtain ⟨x, xs, j, rest, hall, htake, hdrop⟩ := exists_halves hlen
  have hkey : upperIndexKey all = j.block := by rw [upperIndexKey, hdrop]; rfl
  rw [htake, hkey]
  subst hall
  have hle := (hchain.keys j (by simp)).1
  obtain ⟨cs1, cs2, bs1, bs2, rfl, rfl, h1, h2⟩ := hchain.of_append
  have hb1 := h1.bounds fun hr => hr.bounds
  have hb2 := h2.bounds fun hr => hr.bounds
  have hjhi : next hi (j :: rest) ≤ hi := h2.next_le
  have hwide : Chain False m d (Finds e m d 2) hi (x :: xs) cs1 bs1 := by
    refine h1.widen hjhi ?_
    intro lo hi hi' node cs bs hr hle
    exact ⟨hr.ascending, fun c hc => ⟨(hr.bounds c hc).1, (hr.bounds c hc).2.trans_le hle⟩, hr.walk⟩
  refine ⟨cs1, bs1, finds_index hwide (by simp) ?_, hle, ?_⟩
  · rw [next_append] at hlo
    exact hlo.trans (next_mono hjhi)
  intro c hc
  rcases mem_append.mp hc with hc | hc
  · exact ⟨fun _ => (hb1 c hc).2, fun _ => hc⟩
  have hge := (hb2 c hc).1
  change j.block ≤ c.1 at hge
  constructor
  · intro hc'
    exact (hb1 c hc').2
  · omega

theorem mem_inner {xs ys ws zs : List ℕ} {p b : ℕ} (h : x ∈ xs ++ ys) :
    x ∈ ws ++ p :: ((xs ++ b :: ys) ++ zs) := by
  simp only [mem_append, mem_cons] at h ⊢
  tauto

namespace Target2

variable {rpre rpost pre post : List Index} {p : Index} {rc1 rc3 cs1 cs3 : List (Cell Kind)}
  {rb1 rb3 bs1 bs3 : List ℕ} {leafMax leafGen : ℕ}

section

variable (t : Target2 False m d rpre p rpost rc1 rc3 rb1 rb3 max gen pre i post cs1 cs3 bs1 bs3
    leafMax leafGen exts e)
include t

theorem refind (d' : ℕ → Image) (rootMax rootGen : ℕ) (hd : ∀ b ∈ rb1 ++ rb3, d' b = d b)
    (hread : readNode m d' p.leaf = some node) (hmax : 0 < node.max ∧ node.max ≤ blockMax m)
    (hin : Finds e m d' 3 (min p.block e.block) (next (2 ^ 32) rpost) node cs bs) :
    Finds e m d' 4 0 (2 ^ 32) (.index rootMax 2 rootGen (rpre ++ lowerKey e.block p :: rpost))
      (rc1 ++ (cs ++ rc3)) (rb1 ++ ((p.leaf :: bs) ++ rb3)) := by
  have hmid : Chain False m d' (Finds e m d' 3) (next (2 ^ 32) rpost) [lowerKey e.block p] cs
      (p.leaf :: bs) :=
    .single hread t.zip.address hmax (min_lt_of_right_lt t.lt) False.elim hin
  exact finds_index (t.zip.refind (by decide) hd hmid t.rkey) (by simp) (Nat.zero_le _)

/-- The root above an inner node whose leaf has changed, but not the node itself. -/
theorem refind_leaf (d' : ℕ → Image) (rootMax rootGen : ℕ)
    (hd : ∀ b ∈ p.leaf :: (rb1 ++ rb3), d' b = d b)
    (hchain : Chain False m d' (Finds e m d' 2) (next (2 ^ 32) rpost)
      (pre ++ lowerKey e.block i :: post) cs bs) :
    Finds e m d' 4 0 (2 ^ 32) (.index rootMax 2 rootGen (rpre ++ lowerKey e.block p :: rpost))
      (rc1 ++ (cs ++ rc3)) (rb1 ++ ((p.leaf :: bs) ++ rb3)) := by
  have hread : readNode m d' p.leaf = some (.index max 1 gen (pre ++ i :: post)) := by
    rw [readNode_congr m (hd p.leaf mem_cons_self)]
    exact t.zip.read
  have hin : Finds e m d' 3 (min p.block e.block) (next (2 ^ 32) rpost)
      (.index max 1 gen (pre ++ lowerKey e.block i :: post)) cs bs :=
    finds_index hchain (by simp) (t.next_eq post).1
  exact t.refind d' rootMax rootGen (fun b hb => hd b (mem_cons_of_mem _ hb)) hread
    t.zip.max (hin.unlower t.target.key)

theorem rleft_lt : ∀ c ∈ rc1, c.1 < min p.block e.block := by
  intro c hc
  have h1 := t.rleft c hc
  have h2 := t.zip.sides.1 c hc
  omega

theorem min_le : min p.block e.block ≤ min i.block e.block := by
  have hlo := t.lo
  have hi := t.target.zip.left.next_le
  rw [next_append] at hlo
  change p.block ≤ next i.block pre at hlo
  omega

theorem halved_mem {x y : Extent} {xs ys : List Extent}
    (hv : Halves m (min i.block e.block) (next (next (2 ^ 32) rpost) post) leafMax (place e exts)
      x xs y ys) : ∀ c ∈ rc1 ++ ((cs1 ++ (leafCells exts ++ cs3)) ++ rc3), c.2.2 = .written →
      (c ∈ rc1 ++ ((cs1 ++ (below (next (next (2 ^ 32) rpost) post) (leafCells (x :: xs)) ++
        cs3)) ++ rc3) ↔ ¬ (y.block ≤ c.1 ∧ c.1 < next (next (2 ^ 32) rpost) post)) := by
  have hkey := hv.key
  have hle := t.target.zip.right.next_le
  have hmin := t.min_le
  refine mem_between (y.block, next (next (2 ^ 32) rpost) post) ?_ ?_
    (mem_between _ ?_ t.target.zip.sides.2 fun c hc _ => t.target.halved_mem hv c hc)
  · intro c hc
    have hlt := t.rleft_lt c hc
    omega
  · intro c hc
    exact hle.trans (t.zip.sides.2 c hc)
  · intro c hc
    exact (t.target.left_lt_min c hc).trans hkey

end

theorem splitBelow2_fails {rootMax rootGen : ℕ}
    (t : Target2 False m s.blocks rpre p rpost rc1 rc3 rb1 rb3 max gen pre i post cs1 cs3
      bs1 bs3 leafMax leafGen exts e)
    (hown : Owned A s.alloc (rb1 ++ p.leaf :: ((bs1 ++ i.leaf :: bs3) ++ rb3)))
    (hhole : Hole (rc1 ++ ((cs1 ++ (leafCells exts ++ cs3)) ++ rc3)) e)
    (hpos : ∀ c ∈ rc1 ++ ((cs1 ++ (leafCells exts ++ cs3)) ++ rc3), 0 < c.2.1)
    (hfull : leafMax ≤ exts.length)
    (hroot : ino.root = .index rootMax 2 rootGen (rpre ++ lowerKey e.block p :: rpost))
    (hsame : ∀ {d' : ℕ → Image}, d' = s.blocks → Remains m d' ino.root
      (rc1 ++ ((cs1 ++ (leafCells exts ++ cs3)) ++ rc3)) (0, 0))
    (h : splitBelow2 A o s ino p.leaf (s.blocks p.leaf) max gen
      (pre ++ lowerKey e.block i :: post) i.leaf (s.blocks i.leaf) leafMax leafGen exts e =
        (false, s', ino')) :
    Remains m s'.blocks ino'.root (rc1 ++ ((cs1 ++ (leafCells exts ++ cs3)) ++ rc3))
      (if leafHalved A o s.alloc i.leaf then
        if o.upperLeafWrite ∧ max ≤ (pre ++ i :: post).length ∧
            indexHalved A o (A.take s.alloc (i.leaf + 1) 1).2 p.leaf then
          (upperIndexKey (placeIndex ⟨upperKey (place e exts), (A.take s.alloc (i.leaf + 1) 1).1.1⟩
            (pre ++ lowerKey e.block i :: post)), next (2 ^ 32) rpost)
        else (upperKey (place e exts), next (next (2 ^ 32) rpost) post)
      else (0, 0)) := by
  obtain ⟨hpi, hroots, hinner⟩ := nodup_two hown.nodup
  obtain ⟨x, xs, y, ys, hv⟩ := t.target.halves hfull
  have hcut := t.halved_mem hv
  rw [← hv.upperKey_eq] at hcut
  -- the leaf keeps its lower half, and nothing above it has changed
  have hlower : ∀ {d' : ℕ → Image}, (∀ b ∈ p.leaf :: (rb1 ++ rb3), d' b = s.blocks b) →
      (∀ b ∈ bs1 ++ bs3, d' b = s.blocks b) →
      d' i.leaf = encode (s.blocks i.leaf) (.leaf leafMax leafGen (x :: xs)) →
      Remains m d' ino.root (rc1 ++ ((cs1 ++ (leafCells exts ++ cs3)) ++ rc3))
        (upperKey (place e exts), next (next (2 ^ 32) rpost) post) := by
    intro d' hd hd' hleaf
    rw [hroot]
    exact (t.refind_leaf d' rootMax rootGen hd
      (t.target.halved d' 2 hv hd' hleaf)).remains hhole hpos hcut
  rw [splitBelow2] at h
  split at h
  · rename_i s1 hhalf
    cases h
    rcases halveLeaf_none hhalf with ⟨hnot, hblocks⟩ | ⟨hhalved, hup, hblocks⟩
    · rw [if_neg hnot]
      exact hsame hblocks
    rw [if_pos hhalved, if_neg fun hh => by rw [hup] at hh; simp at hh]
    rw [hv.take] at hblocks
    refine hlower ?_ ?_ (by rw [hblocks, update_self])
    · intro b hb
      have hbi : b ≠ i.leaf := by
        rcases mem_cons.mp hb with rfl | hb
        · exact hpi
        · exact (hroots b hb).2
      rw [hblocks, update_of_ne hbi]
    · intro b hb
      rw [hblocks, update_of_ne (nodup_middle (owned hown).nodup hb)]
  rename_i s1 j hhalf
  obtain ⟨hhalved, hup, hj, halloc, hgrown, hblocks⟩ := halveLeaf_some hhalf
  rw [hv.take, hv.drop] at hblocks
  rw [if_pos hhalved, ← hj, ← halloc]
  have hjfree := hgrown.free_single
  have hother : ∀ b, b ≠ i.leaf → b ∈ rb1 ++ p.leaf :: ((bs1 ++ i.leaf :: bs3) ++ rb3) →
      s1.blocks b = s.blocks b := by
    intro b hbi hb
    rw [hblocks, update_of_ne (hown.ne_of_free hjfree hb), update_of_ne hbi]
  have hleaf : s1.blocks i.leaf =
      encode (s.blocks i.leaf) (.leaf leafMax leafGen (x :: xs)) := by
    rw [hblocks, update_of_ne (hown.ne_of_free hjfree (by simp)), update_self]
  have hroots' : ∀ b ∈ p.leaf :: (rb1 ++ rb3), s1.blocks b = s.blocks b := by
    intro b hb
    rcases mem_cons.mp hb with rfl | hb
    · exact hother _ hpi (by simp)
    exact hother b (hroots b hb).2 (mem_root hb)
  have hinner' : ∀ b ∈ bs1 ++ bs3, s1.blocks b = s.blocks b := fun b hb =>
    hother b (nodup_middle (owned hown).nodup hb) (mem_inner hb)
  generalize hadd : addBelow2 A o s1 ino p.leaf (s.blocks p.leaf) max gen
    (pre ++ lowerKey e.block i :: post) j = r at h
  obtain ⟨ok, s2, ino2⟩ := r
  dsimp only at h
  split at h
  · simp at h
  rename_i hfalse
  obtain rfl : ok = false := by simpa using hfalse
  cases h
  change Remains m s2.blocks _ _ _
  rw [addBelow2] at hadd
  split at hadd
  · rename_i idxs' hindex
    obtain ⟨hroom, -⟩ := insertIndexEntry_eq_some hindex
    rw [if_neg fun hh => by
      have hle := hh.2.1
      simp only [length_append, length_cons] at hle hroom
      omega]
    split at hadd
    · simp at hadd
    · cases hadd
      exact hlower hroots' hinner' hleaf
  rename_i hindex
  have hfullI : max ≤ (pre ++ i :: post).length := by
    by_contra hnot
    rw [insertIndexEntry, if_neg (by simpa using hnot)] at hindex
    simp at hindex
  obtain ⟨rfl, hcase⟩ := splitIndex_false hadd
  rcases hcase with ⟨hnot, hblocks2⟩ | ⟨hindexHalved, nb, hnb, hblocks2⟩
  · rw [if_neg fun hh => hnot hh.2.2, hblocks2]
    exact hlower hroots' hinner' hleaf
  -- the inner node has lost its upper half
  rw [if_pos ⟨hup, hfullI, hindexHalved⟩]
  obtain ⟨-, hplace, -, -⟩ := t.target.split (owned hown) hfull hhalf
  rw [hplace] at hblocks2 ⊢
  have hown1 : Owned A s1.alloc
      (j.leaf :: (rb1 ++ p.leaf :: ((bs1 ++ i.leaf :: bs3) ++ rb3))) := hown.grow hgrown
  have hjp := (hown.ne_of_free hjfree (by simp : p.leaf ∈ _)).symm
  have hkeep : ∀ b ∈ j.leaf :: (rb1 ++ p.leaf :: ((bs1 ++ i.leaf :: bs3) ++ rb3)),
      b ≠ p.leaf → s2.blocks b = s1.blocks b := by
    intro b hb hbp
    rw [hblocks2 b (hown1.ne_of_free hnb hb), update_of_ne hbp]
  obtain ⟨hreadable, -, -, hmax16, -, -, hgen, -⟩ := readNode_eq_some t.zip.read
  obtain ⟨hleafReadable, -, -, hlmax16, hlgen, -⟩ := readNode_eq_some t.target.zip.read
  have hread : readNode m s2.blocks i.leaf = some (.leaf leafMax leafGen (x :: xs)) :=
    readNode_encode hleafReadable (leaf_fits hv.lower hv.lower_len hlmax16 hlgen)
      (by rw [hkeep i.leaf (by simp) hpi.symm, hleaf])
  have hreadj : readNode m s2.blocks j.leaf = some (.leaf (blockMax m) leafGen (y :: ys)) :=
    readNode_encode (A.free_readable hjfree).1
      (leaf_fits hv.upper (hv.upper_len.trans t.target.zip.max.2) (blockMax_lt m).2 hlgen)
      (by rw [hkeep j.leaf mem_cons_self hjp, hblocks, update_self])
  have hjy : j.block = y.block := by rw [hj, ← hv.upperKey_eq]
  have hchain := t.target.relink s2.blocks 2 (fun b hb => by
    rw [hkeep b (mem_cons_of_mem _ (mem_inner hb)) (hinner b (mem_around hb)), hinner' b hb])
    hv hread hreadj (A.free_readable hjfree).2 hjy
  have hlo := (t.next_eq (j :: post)).1
  have hlen : (pre ++ lowerKey e.block i :: j :: post).length = (pre ++ i :: post).length + 1 := by
    simp only [length_append, length_cons]
    omega
  generalize pre ++ lowerKey e.block i :: j :: post = all at hblocks2 hchain hlo hlen ⊢
  have hmax : 0 < max := t.zip.max.1
  have hlenL := t.len
  obtain ⟨csL, bsL, hfinds, hle, hmem⟩ := finds_lower max gen hchain (by omega) hlo
  have hreadp : readNode m s2.blocks p.leaf =
      some (.index max 1 gen (all.take (all.length / 2))) :=
    readNode_encode hreadable ⟨by rw [length_take]; omega, hmax16, by decide, by decide, hgen,
      fun z hz => hchain.fits t.range_le z (mem_of_mem_take hz)⟩
      (by rw [hblocks2 p.leaf (hown1.ne_of_free hnb (by simp)), update_self])
  rw [hroot]
  refine (t.refind s2.blocks rootMax rootGen (fun b hb => ?_) hreadp t.zip.max
    hfinds).remains hhole hpos ?_
  · rw [hkeep b (mem_cons_of_mem _ (mem_root hb)) (hroots b hb).1, hroots' b (mem_cons_of_mem _ hb)]
  refine mem_between _ ?_ t.zip.sides.2 ?_
  · intro c hc
    have hlt := t.rleft_lt c hc
    omega
  intro c hc _
  have hbound := t.zip.child.bounds c hc
  have hnew : c ∈ cs1 ++ ((leafCells (x :: xs) ++
      below (next (next (2 ^ 32) rpost) post) (leafCells (y :: ys))) ++ cs3) := by
    simp only [mem_append] at hc ⊢
    rcases hc with hc | hc | hc
    · exact .inl hc
    · have hlt : c.1 < next (next (2 ^ 32) rpost) post := leafCells_lt t.target.stop c hc
      rcases hv.mem_or hc with ⟨hmem, -⟩ | ⟨hmem, -⟩
      · exact .inr (.inl (.inl hmem))
      · exact .inr (.inl (.inr (mem_below.mpr ⟨hmem, hlt⟩)))
    · exact .inr (.inr hc)
  rw [hmem c hnew]
  omega

end Target2

theorem insertBelow2_fails (hroot : ino.root = .index max 2 gen idxs)
    (hrep : Rep True False m s.blocks 2 0 (2 ^ 32) (.index max 2 gen idxs) cs bs)
    (hown : Owned A s.alloc bs) (hrun : RunOk m cs e)
    (h : insertBelow2 A o s ino max gen idxs e = (false, s', ino')) :
    Remains m s'.blocks ino'.root cs (cutBelow2 A o s idxs e) := by
  have hpos := hrep.target_pos
  have hwhole : Remains m s.blocks ino.root cs (0, 0) := by
    rw [hroot]
    exact (hrep.finds (by decide)).remains_all hrun.hole hpos fun c hc _ => hc
  have hhole := hrun.hole
  obtain ⟨rpre, p, rpost, rc1, rc3, rb1, rb3, imax, igen, pre, i, post, cs1, cs3, bs1, bs3, lmax,
    lgen, exts, hrbest, hbest, rfl, rfl, -, t2⟩ := hrep.target2 hrun
  obtain ⟨rfl, -, -⟩ := best_eq_some hrbest
  have rz := t2.zip
  have hread := rz.read
  have t := t2.target
  have z := t.zip
  rw [insertBelow2, hrbest] at h
  dsimp only at h
  rw [cutBelow2, hrbest]
  dsimp only
  rw [hread]
  dsimp only
  rw [hbest]
  dsimp only
  rw [z.read]
  dsimp only
  split at h
  swap
  · rename_i hcond
    rw [if_neg fun hh => hcond ⟨rz.addressable, hh.1⟩]
    cases h
    exact hwhole
  rename_i hcond
  rw [hread] at h
  simp only [hbest] at h
  -- the key in the root is lowered, and that is all
  have hsame : ∀ {d' : ℕ → Image}, d' = s.blocks →
      Remains m d' (.index max 2 gen (rpre ++ lowerKey e.block p :: rpost))
        (rc1 ++ ((cs1 ++ (leafCells exts ++ cs3)) ++ rc3)) (0, 0) :=
    fun hd' => rz.remains hd' (by decide) t2.rkey hhole hpos
  split at h
  swap
  · rename_i hcalls
    rw [if_neg fun hh => hcalls ⟨z.addressable, hh.2.1⟩]
    cases h
    exact hsame rfl
  rename_i hcalls
  rw [z.read] at h
  dsimp only at h
  split at h
  · rename_i hover
    rw [if_neg (by rw [hover]; simp)]
    cases h
    exact hsame rfl
  · rename_i exts' hdone
    rw [if_neg (by rw [hdone]; simp)]
    obtain ⟨hins, hlen'⟩ := insertLeafEntry_done hdone
    have hlen' := hlen' t.len
    split at h
    swap
    · cases h
      exact hsame rfl
    split at h
    swap
    · simp at h
    rename_i hlow
    split at h
    · simp at h
    -- the leaf is written, and its lowered key is not
    cases h
    obtain ⟨hpi, hroots, hinner⟩ := nodup_two hown.nodup
    obtain ⟨hreadable, -, -, hmax16, hgen, -⟩ := readNode_eq_some z.read
    have hnew := t.relabel (writeImage s i.leaf
        (encode (s.blocks i.leaf) (.leaf lmax lgen exts'))).blocks 2
      (fun b hb => writeImage_other _ _ (nodup_middle (Target2.owned hown).nodup hb))
      (readNode_encode hreadable (leaf_fits (hins.leafOk t.site) hlen' hmax16 hgen)
        (writeImage_self _ _ _)) (hins.leafOk t.site) (fun f hf => by
        obtain ⟨g, hg, hle⟩ := hins.stop_le t.site hf
        rcases mem_place.mp hg with rfl | hg
        · exact .inr hle
        · exact .inl (hle.trans (t.stop g hg)))
    refine (t2.refind_leaf _ max gen (fun b hb => ?_) hnew).remains_all hhole hpos ?_
    · refine writeImage_other _ _ ?_
      rcases mem_cons.mp hb with rfl | hb
      · exact hpi
      · exact (hroots b hb).2
    intro c hc hwritten
    simp only [mem_append, mem_below] at hc ⊢
    rcases hc with hc | (hc | hc | hc) | hc
    · exact .inl hc
    · exact .inr (.inl (.inl hc))
    · refine .inr (.inl (.inr (.inl ⟨?_, ?_⟩)))
      · obtain ⟨max1, gen1, exts1, hnode1, -, hleaf, -⟩ := z.child
        obtain ⟨rfl, rfl, rfl⟩ := Node.leaf.inj hnode1
        exact hins.mem_written t.site (joinedLeft_eq_none hleaf hlow.le) hc hwritten
      · exact leafCells_lt t.stop c hc
    · exact .inr (.inl (.inr (.inr hc)))
    · exact .inr (.inr hc)
  · rename_i hfull
    have hres := t2.splitBelow2_fails hown hhole hpos (insertLeafEntry_full hfull).1 rfl hsame h
    by_cases hhalved : leafHalved A o s.alloc i.leaf
    · rw [if_pos ⟨hcond.2, hcalls.2, hfull, hhalved⟩]
      rw [if_pos hhalved] at hres
      exact hres
    · rw [if_neg fun hh => hhalved hh.2.2.2]
      rw [if_neg hhalved] at hres
      exact hres

/-! ## A failed insertion -/

/-- **What a failed insertion leaves.** -/
theorem insert_fails {k : ℕ} (hok : RootOk ino.root) (hext : ino.extents = true)
    (hrep : Rep True False m s.blocks k 0 (2 ^ 32) ino.root cs bs) (hk : k ≤ 2)
    (hown : Owned A s.alloc bs) (hrun : RunOk m cs e) (h : insert A o s ino e = (false, s', ino')) :
    Remains m s'.blocks ino'.root cs (cutOff A o s ino.root e) := by
  have hsame : ∀ {d' : ℕ → Image}, d' = s.blocks → Remains m d' ino.root cs (0, 0) := by
    intro d' hd'
    have hrep' : Rep True False m d' k 0 (2 ^ 32) ino.root cs bs :=
      hrep.frame fun b _ => congrFun hd' b
    exact (hrep'.finds (by omega)).remains_all hrun.hole hrep.target_pos fun c hc _ => hc
  have hinsertable : Insertable e := by
    have hpos := hrun.ok.pos
    have hshort := hrun.short
    have haddr := hrun.ok.address
    have hcount := count_of_lt hshort
    have hmax : maxPhysBlock = 2 ^ 48 - 1 := rfl
    exact ⟨hpos, by omega, by omega, by omega⟩
  rw [insert, if_pos hinsertable, hext, if_pos rfl, insertFrom] at h
  rcases (by omega : k = 0 ∨ k = 1 ∨ k = 2) with rfl | rfl | rfl
  · obtain ⟨max, gen, exts, hroot, hlen, hleaf, hfit, rfl, rfl⟩ := hrep
    have hstop := hfit trivial
    have hself : below (2 ^ 32) (leafCells exts) = leafCells exts := below_leafCells hstop
    rw [hself] at hrun hsame ⊢
    rw [hroot] at h hok
    have hcut : cutOff A o s ino.root e = (0, 0) := by rw [hroot]; rfl
    rw [hcut]
    dsimp only at h
    split at h
    · cases h
      exact hsame rfl
    · simp at h
    -- the root grows, and the leaf has room then
    rename_i hfull
    obtain ⟨hlenfull, -⟩ := insertLeafEntry_full hfull
    generalize hg : growRoot A o.growLeaf s ino = g at h
    obtain ⟨ok, s1, ino1⟩ := g
    rcases ok with _ | _
    · cases h
      obtain ⟨hblocks, rfl⟩ := growRoot_false hg
      exact hsame hblocks
    have hmax4 : 0 < max ∧ max ≤ 4 := hok.max
    have hne : exts ≠ [] := by
      rintro rfl
      simp at hlenfull
      omega
    obtain ⟨key, b, hgrown, hroot1, hok1, hread1, hrep1⟩ :=
      growRoot_rep hroot hok hleaf hstop hne hlen hg
    dsimp only at h
    rw [insertFrom, hroot1] at h
    rw [hroot1] at hok1 hrep1
    have hown1 : Owned A s1.alloc [b] := ⟨nodup_singleton b, fun x hx => (hgrown.free x hx).2⟩
    have hres := insertBelow1_fails hok1 hrep1 hown1 hrun h
    have hcut1 : cutBelow1 A o s1 [⟨key, b⟩] e = (0, 0) := by
      rw [cutBelow1, best, best]
      dsimp only
      rw [hread1]
      refine if_neg fun hh => ?_
      have hle := (insertLeafEntry_full hh.2.1).1
      have hbm := blockMax_lt m
      omega
    rw [hcut1] at hres
    exact hres
  · obtain ⟨max, gen, idxs, hroot, -⟩ := id hrep
    rw [hroot] at h hok hrep
    rw [hroot]
    exact insertBelow1_fails hok hrep hown hrun h
  · obtain ⟨max, gen, idxs, hroot, -⟩ := id hrep
    rw [hroot] at h hrep
    rw [hroot]
    exact insertBelow2_fails hroot hrep hown hrun h

/-- An insertion into a tree deeper than the code handles changes nothing. -/
theorem insert_deep (hext : ino.extents = true) (hdepth : 2 < ino.root.depth) :
    insert A o s ino e = (false, s, ino) := by
  rw [insert, hext]
  split
  swap
  · rfl
  rw [if_pos rfl, insertFrom]
  split
  · rename_i hroot
    rw [hroot] at hdepth
    simp [Node.depth] at hdepth
  rename_i max depth gen idxs hroot
  rw [hroot] at hdepth
  change 2 < depth at hdepth
  rw [if_neg (by omega), if_neg (by omega)]

end

/-- **A failed insertion loses nothing exactly when no block was mapped in the range it cuts
off.** -/
theorem insert_failure_iff {s s' : Store α} {ino ino' : Inode} {o : Outcomes}
    (hwf : WellFormed A s ino) (hfits : RunFits m e) (hole : IsHole m s.blocks ino.root e)
    (h : insert A o s ino e = (false, s', ino')) :
    (∀ x < 2 ^ 32, getBlockNum m s.blocks ino.root x ≠ 0 →
        getBlockNum m s'.blocks ino'.root x = getBlockNum m s.blocks ino.root x) ↔
      ∀ x < 2 ^ 32, (cutOff A o s ino.root e).1 ≤ x → x < (cutOff A o s ino.root e).2 →
        getBlockNum m s.blocks ino.root x = 0 := by
  obtain ⟨cs, bs, htree⟩ := hwf
  by_cases hdeep : 2 < ino.root.depth
  · rw [insert_deep htree.extents hdeep] at h
    cases h
    have hcut : cutOff A o s ino.root e = (0, 0) := by
      cases hroot : ino.root with
      | leaf max gen exts => rfl
      | index max depth gen idxs =>
        rw [hroot] at hdeep
        change 2 < depth at hdeep
        rw [cutOff, if_neg (by omega), if_neg (by omega)]
    rw [hcut]
    exact ⟨fun _ x _ _ hx => absurd hx (Nat.not_lt_zero x), fun _ x _ _ => rfl⟩
  have hrun := htree.hole (by omega) hfits hole
  have hremains := insert_fails htree.root htree.extents htree.rep (by omega) htree.owned hrun h
  -- what a lookup found is a written cell
  have hcell : ∀ x < 2 ^ 32, getBlockNum m s.blocks ino.root x ≠ 0 →
      (x, getBlockNum m s.blocks ino.root x, Kind.written) ∈ cs := by
    intro x hx hne
    have heq := getBlockNum_eq htree.rep hx (by omega)
    exact (found_eq_iff htree.rep.ascending (Nat.pos_of_ne_zero hne)).mp heq.symm
  constructor
  · intro hkeep x hx h1 h2
    by_contra hne
    exact (hremains _ (hcell x hx hne) rfl).mp (hkeep x hx hne) ⟨h1, h2⟩
  intro hcut x hx hne
  refine (hremains _ (hcell x hx hne) rfl).mpr ?_
  rintro ⟨h1, h2⟩
  exact hne (hcut x hx h1 h2)

/-! ## A leaf with one entry -/

namespace SmallTree

/-- An allocator whose only free block is 7. -/
def lastBlock : Allocator volume Bool where
  take := fun free _ wanted => if free ∧ 0 < wanted then ((7, 1), false) else ((0, 0), free)
  give := fun free b => (true, free || b == 7)
  Free := fun free b => free = true ∧ b = 7
  free_readable := by
    rintro a b ⟨-, rfl⟩
    exact ⟨by decide, by decide⟩
  take_count := by
    intro a goal wanted h
    split at h
    · rename_i hfree
      rw [if_pos hfree]
      exact ⟨Nat.one_pos, hfree.2⟩
    · exact absurd rfl h
  take_free := by
    intro a goal wanted k h hk
    split at h
    · rename_i hfree
      rw [if_pos hfree] at hk ⊢
      obtain rfl : k = 0 := by dsimp only at hk; omega
      exact ⟨⟨hfree.1, rfl⟩, fun hno => Bool.noConfusion hno.1⟩
    · exact absurd rfl h
  take_mono := by
    intro a goal wanted b h
    split at h
    · exact Bool.noConfusion h.1
    · exact h
  give_free := by
    intro a b x h
    rcases Bool.or_eq_true_iff.mp h.1 with hfree | hb
    · exact .inl ⟨hfree, h.2⟩
    · exact .inr (by rw [h.2]; exact (beq_iff_eq.mp hb).symm)

def mappedExtent : Extent := ⟨10, 1, 50⟩

/-- Block 5 holds a leaf with room for one entry, which is taken. -/
def fullLeaf : Store Bool :=
  ⟨update (fun _ => zero) 5 (encode zero (.leaf 1 0 [mappedExtent])), true⟩

def parent : Inode := { inode [] with root := .index 4 1 0 [⟨10, 5⟩] }

def upperFails : Outcomes := { smooth with upperLeafWrite := false }

def lowerFails : Outcomes := { smooth with lowerLeafWrite := false }

theorem mappedExtent_ok : ExtentOk volume mappedExtent := by
  constructor <;> decide

theorem wellFormed_parent : WellFormed lastBlock fullLeaf parent := by
  have hleaf : LeafOk volume 10 (2 ^ 32) [mappedExtent] := by
    refine (leafOk_singleton mappedExtent_ok).mono ?_
    intro f hf
    rw [mem_singleton.mp hf]
    exact ⟨by decide, by decide⟩
  have hblock : fullLeaf.blocks 5 = encode zero (.leaf 1 0 [mappedExtent]) := by
    simp [fullLeaf]
  have hread : readNode volume fullLeaf.blocks 5 = some (.leaf 1 0 [mappedExtent]) :=
    readNode_encode ⟨by decide, by decide⟩ (leaf_fits hleaf (by decide) (by decide) (by decide))
      hblock
  have hchain : Chain False volume fullLeaf.blocks (Rep True False volume fullLeaf.blocks 0)
      (2 ^ 32) [⟨10, 5⟩] (below (2 ^ 32) (leafCells [mappedExtent])) [5] := by
    refine chain_leaf hleaf hread (by decide) ⟨by decide, by decide⟩ (by decide) (by decide) ?_
      False.elim
    intro _ f hf
    rw [mem_singleton.mp hf]
    decide
  refine ⟨_, [5], rfl, ⟨by decide, ?_⟩, ⟨4, 0, _, rfl, by decide, by simp, Nat.zero_le _, hchain⟩,
    nodup_singleton 5, ?_⟩
  · refine ⟨by decide, by decide, by decide, by decide, by decide, ?_⟩
    intro i hi
    rw [mem_singleton.mp hi]
    exact ⟨by decide, by decide⟩
  · intro b hb hfree
    rw [mem_singleton.mp hb] at hfree
    exact absurd hfree.2 (by decide)

theorem hole_parent : IsHole volume fullLeaf.blocks parent.root ⟨0, 1, 60⟩ := by
  intro x h1 h2
  obtain rfl : x = 0 := by dsimp only at h2; omega
  decide +kernel

theorem run_fits : RunFits volume ⟨0, 1, 60⟩ := ⟨by constructor <;> decide, by decide⟩

end SmallTree

open SmallTree in
/-- The write of the new leaf fails after the old one was written: block 10, which was mapped to
physical block 50, is a hole. -/
theorem upper_half_lost : WellFormed lastBlock fullLeaf parent ∧ RunFits volume ⟨0, 1, 60⟩ ∧
      IsHole volume fullLeaf.blocks parent.root ⟨0, 1, 60⟩ ∧
      (insert lastBlock upperFails fullLeaf parent ⟨0, 1, 60⟩).1 = false ∧
      getBlockNum volume fullLeaf.blocks parent.root 10 = 50 ∧
      getBlockNum volume (insert lastBlock upperFails fullLeaf parent ⟨0, 1, 60⟩).2.1.blocks
        (insert lastBlock upperFails fullLeaf parent ⟨0, 1, 60⟩).2.2.root 10 = 0 := by
  refine ⟨wellFormed_parent, run_fits, hole_parent, ?_⟩
  decide +kernel

open SmallTree in
/-- The write of the old leaf fails: nothing is lost. -/
theorem insert_failure_lower : (insert lastBlock lowerFails fullLeaf parent ⟨0, 1, 60⟩).1 = false ∧
      ∀ x < 2 ^ 32, getBlockNum volume fullLeaf.blocks parent.root x ≠ 0 →
        getBlockNum volume (insert lastBlock lowerFails fullLeaf parent ⟨0, 1, 60⟩).2.1.blocks
            (insert lastBlock lowerFails fullLeaf parent ⟨0, 1, 60⟩).2.2.root x =
          getBlockNum volume fullLeaf.blocks parent.root x := by
  have hfail : (insert lastBlock lowerFails fullLeaf parent ⟨0, 1, 60⟩).1 = false := by
    decide +kernel
  refine ⟨hfail, (insert_failure_iff wellFormed_parent run_fits hole_parent
    (Prod.ext hfail rfl)).mpr ?_⟩
  intro x _ _ hlt
  exact absurd hlt (Nat.not_lt_zero x)

end AvoryOS.Ext4
