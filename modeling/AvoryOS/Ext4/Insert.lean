import AvoryOS.Ext4.Leaf

/-!
# Inserting into the tree

A successful insertion puts the run into the leaf its block belongs to; leaves and inner nodes
that are full are split on the way, and the root grows.  `Effect` says what a tree maps
afterwards: the cells of that leaf change as `Inserted` says, and no others.
-/

namespace AvoryOS.Ext4

open Nat Bytes Ext3 Runs Function List

variable {m : Mount} {α : Type*} {A : Allocator m α} {E F F' : Prop}

/-! ## Blocks from the allocator -/

/-- The blocks were free before and are in use now, and nothing else became free. -/
structure Grown (A : Allocator m α) (a a' : α) (fresh : List ℕ) : Prop where
  nodup : fresh.Nodup
  free : ∀ b ∈ fresh, A.Free a b ∧ ¬ A.Free a' b
  mono : ∀ b, A.Free a' b → A.Free a b

/-- The results of an operation that returns a flag and two states. -/
theorem triple_inj {β γ δ : Type*} {x x' : β} {y y' : γ} {z z' : δ}
    (h : (x, y, z) = (x', y', z')) : x = x' ∧ y = y' ∧ z = z' := by
  simpa using h

theorem Grown.refl (A : Allocator m α) (a : α) : Grown A a a [] :=
  ⟨nodup_nil, by simp, fun _ h => h⟩

variable {a : α}

theorem Grown.take {goal : ℕ} (h : (A.take a goal 1).1.1 ≠ 0) :
    Grown A a (A.take a goal 1).2 [(A.take a goal 1).1.1] := by
  refine ⟨nodup_singleton _, ?_, fun _ hb => A.take_mono hb⟩
  intro b hb
  rw [mem_singleton.mp hb]
  exact A.take_free h (A.take_count h).1

variable {a' : α} {b : ℕ}

theorem Grown.free_single (h : Grown A a a' [b]) : A.Free a b := (h.free b (mem_singleton_self b)).1

variable {xs ys : List ℕ}

theorem Grown.trans {a'' : α} (h1 : Grown A a a' xs)
    (h2 : Grown A a' a'' ys) : Grown A a a'' (ys ++ xs) := by
  refine ⟨?_, ?_, fun b hb => h1.mono b (h2.mono b hb)⟩
  · refine h2.nodup.append h1.nodup ?_
    intro b hy hx
    exact (h1.free b hx).2 (h2.free b hy).1
  intro b hb
  rcases mem_append.mp hb with hb | hb
  · exact ⟨h1.mono b (h2.free b hb).1, (h2.free b hb).2⟩
  · exact ⟨(h1.free b hb).1, fun hfree => (h1.free b hb).2 (h2.mono b hfree)⟩

/-- The blocks are distinct and in use. -/
structure Owned (A : Allocator m α) (a : α) (bs : List ℕ) : Prop where
  nodup : bs.Nodup
  used : ∀ b ∈ bs, ¬ A.Free a b

variable {bs : List ℕ}

theorem Owned.ne_of_free (h : Owned A a bs) (hb : A.Free a b) {x : ℕ} (hx : x ∈ bs) : x ≠ b :=
  fun heq => h.used x hx (heq ▸ hb)

theorem mem_around {x : ℕ} (h : x ∈ xs ++ ys) : x ∈ xs ++ b :: ys := by
  simp only [mem_append] at h ⊢
  tauto

theorem Owned.grow {fresh : List ℕ} (h : Owned A a bs) (hg : Grown A a a' fresh) :
    Owned A a' (fresh ++ bs) := by
  refine ⟨hg.nodup.append h.nodup ?_, ?_⟩
  · intro b hf hb
    exact h.used b hb (hg.free b hf).1
  intro b hb hfree
  rcases mem_append.mp hb with hb | hb
  · exact (hg.free b hb).2 hfree
  · exact h.used b hb (hg.mono b hfree)

theorem Owned.perm {bs' : List ℕ} (h : Owned A a bs) (hp : bs'.Perm bs) : Owned A a bs' :=
  ⟨hp.nodup_iff.mpr h.nodup, fun b hb => h.used b (hp.mem_iff.mp hb)⟩

/-! ## Chains -/

variable {d d' : ℕ → Image}

variable {k lo hi : ℕ} {node : Node} {cs : List (Cell Kind)}

theorem Rep.mono (hF : F' → F)
    (h : Rep F E m d k lo hi node cs bs) : Rep F' E m d k lo hi node cs bs := by
  induction k generalizing lo hi node cs bs with
  | zero =>
    obtain ⟨max, gen, exts, hnode, hlen, hleaf, hfit, hcs, hbs⟩ := h
    exact ⟨max, gen, exts, hnode, hlen, hleaf, fun hf => hfit (hF hf), hcs, hbs⟩
  | succ k ih =>
    obtain ⟨max, gen, idxs, hnode, hlen, hne, hlo, hchain⟩ := h
    exact ⟨max, gen, idxs, hnode, hlen, hne, hlo,
      hchain.frame (fun _ _ => rfl) fun hr _ => ih hr⟩

namespace Chain

variable {R : ℕ → ℕ → Node → List (Cell Kind) → List ℕ → Prop} {idxs : List Index}

theorem move (d' : ℕ → Image) (h : Chain E m d (Rep F E m d k) hi idxs cs bs)
    (hd : ∀ b ∈ bs, d' b = d b) : Chain E m d' (Rep F E m d' k) hi idxs cs bs :=
  h.frame hd fun hr hd => hr.frame hd

theorem fits (h : Chain E m d R hi idxs cs bs) (hhi : hi ≤ 2 ^ 32) : ∀ i ∈ idxs, IndexFits i := by
  induction h with
  | nil => simp
  | cons read address max key exact child rest ih =>
    intro j hj
    rcases mem_cons.mp hj with rfl | hj
    · exact ⟨(key.trans_le rest.next_le).trans_le hhi, address⟩
    · exact ih j hj

/-- With exact keys a range ends where the chain does or where a cell starts. -/
theorem exact_next (h : Chain E m d R hi idxs cs bs) (hE : E) :
    next hi idxs = hi ∨ ∃ c ∈ cs, c.1 = next hi idxs := by
  cases h with
  | nil => exact .inl rfl
  | cons read address max key exact child rest =>
    obtain ⟨c, hc, hkey⟩ := exact hE
    exact .inr ⟨c, mem_append_left _ hc, hkey⟩

end Chain

/-- The children of an inner node on both sides of one of them. -/
structure Zip (F E : Prop) (m : Mount) (d : ℕ → Image) (k hi : ℕ) (pre : List Index) (i : Index)
    (post : List Index) (node : Node) (cs1 cs2 cs3 : List (Cell Kind)) (bs1 bs2 bs3 : List ℕ) :
    Prop where
  left : Chain E m d (Rep F E m d k) i.block pre cs1 bs1
  read : readNode m d i.leaf = some node
  address : i.leaf < 2 ^ 48
  max : 0 < node.max ∧ node.max ≤ blockMax m
  key : i.block < next hi post
  exact : E → ∃ c ∈ cs2, c.1 = i.block
  child : Rep F E m d k i.block (next hi post) node cs2 bs2
  right : Chain E m d (Rep F E m d k) hi post cs3 bs3

variable {pre : List Index} {i : Index}

variable {post : List Index}

theorem Chain.zip (h : Chain E m d (Rep F E m d k) hi (pre ++ i :: post) cs bs) :
    ∃ node cs1 cs2 cs3 bs1 bs2 bs3, cs = cs1 ++ (cs2 ++ cs3) ∧ bs = bs1 ++ i.leaf :: (bs2 ++ bs3) ∧
      Zip F E m d k hi pre i post node cs1 cs2 cs3 bs1 bs2 bs3 := by
  obtain ⟨cs1, cs2, bs1, bs2, rfl, rfl, h1, h2⟩ := h.of_append
  cases h2 with
  | @cons _ _ node cs cs' bs bs' read address max key exact child rest =>
    exact ⟨node, cs1, cs, cs', bs1, bs, bs', rfl, rfl,
      ⟨h1, read, address, max, key, exact, child, rest⟩⟩

namespace Zip

variable {mid : List Index} {cs1 cs2 cs3 : List (Cell Kind)} {bs1 bs2 bs3 : List ℕ}

section

variable (z : Zip F E m d k hi pre i post node cs1 cs2 cs3 bs1 bs2 bs3)
include z

/-- The child is replaced by other children of the same range, which may be of another kind. -/
theorem rebuild_of {R : ℕ → ℕ → Node → List (Cell Kind) → List ℕ → Prop}
    (hR : ∀ {lo hi node cs bs}, Rep F E m d k lo hi node cs bs → (∀ b ∈ bs, d' b = d b) →
      R lo hi node cs bs)
    (hd : ∀ b ∈ bs1 ++ bs3, d' b = d b) (hmid : Chain E m d' R (next hi post) mid cs bs)
    (hkey : pre = [] ∨ next (next hi post) mid = i.block) :
    Chain E m d' R hi (pre ++ (mid ++ post)) (cs1 ++ (cs ++ cs3)) (bs1 ++ (bs ++ bs3)) := by
  have hright : Chain E m d' R hi post cs3 bs3 :=
    z.right.frame (fun b hb => hd b (mem_append_right _ hb)) hR
  refine Chain.append ?_ (hmid.append hright)
  rw [next_append]
  have hleft := z.left
  rcases hkey with rfl | hkey
  · cases hleft
    exact .nil
  · rw [hkey]
    exact hleft.frame (fun b hb => hd b (mem_append_left _ hb)) hR

theorem rebuild (hF : F' → F) (hd : ∀ b ∈ bs1 ++ bs3, d' b = d b)
    (hmid : Chain E m d' (Rep F' E m d' k) (next hi post) mid cs bs)
    (hkey : pre = [] ∨ next (next hi post) mid = i.block) :
    Chain E m d' (Rep F' E m d' k) hi (pre ++ (mid ++ post)) (cs1 ++ (cs ++ cs3))
      (bs1 ++ (bs ++ bs3)) :=
  z.rebuild_of (fun hr hd => (hr.mono hF).frame hd) hd hmid hkey

theorem sides : (∀ c ∈ cs1, c.1 < i.block) ∧ ∀ c ∈ cs3, next hi post ≤ c.1 :=
  ⟨fun c hc => (z.left.bounds (fun hr => hr.bounds) c hc).2,
    fun c hc => (z.right.bounds (fun hr => hr.bounds) c hc).1⟩

end

end Zip

/-! ## Leaves -/

variable {max gen : ℕ}

section

variable {key h : ℕ} {exts : List Extent} {e : Extent}

/-- A cell at the lower end of the range is the first block of the first extent. -/
theorem LeafOk.firstBlock_eq (hleaf : LeafOk m key h exts)
    (hcell : ∃ c ∈ below h (leafCells exts), c.1 = key) : firstBlock exts = some key := by
  obtain ⟨c, hc, rfl⟩ := hcell
  obtain ⟨f, hf, hle, -⟩ := mem_leafCells.mp (mem_below.mp hc).1
  cases exts with
  | nil => cases hf
  | cons g exts =>
    have hg := (hleaf.range g mem_cons_self).1
    have hgf : g.block ≤ f.block := by
      rcases mem_cons.mp hf with rfl | hf
      · exact le_rfl
      · have hstop := hleaf.head_stop hf
        omega
    have heq : g.block = c.1 := by omega
    rw [firstBlock, head?_cons, Option.map_some, heq]

theorem LeafOk.exists_cell (hleaf : LeafOk m key h exts) (hfirst : firstBlock exts = some key)
    (hkey : key < h) : ∃ c ∈ below h (leafCells exts), c.1 = key := by
  cases exts with
  | nil => simp [firstBlock] at hfirst
  | cons g exts =>
    have hg : g.block = key := by simpa [firstBlock] using hfirst
    have hpos := (hleaf.ok g mem_cons_self).count_pos
    refine ⟨(key, g.start + (key - g.block), g.kind), ?_, rfl⟩
    rw [mem_below, mem_leafCells]
    exact ⟨⟨g, mem_cons_self, hg.le, by omega, rfl⟩, hkey⟩

/-- A run that is placed before the first extent becomes the first one. -/
theorem firstBlock_place (hfirst : firstBlock exts = some key) :
    firstBlock (place e exts) = some (min key e.block) := by
  cases exts with
  | nil => simp [firstBlock] at hfirst
  | cons g exts =>
    have hg : g.block = key := by simpa [firstBlock] using hfirst
    subst hg
    by_cases hlt : g.block < e.block
    · simp [place, before, firstBlock, hlt, hlt.le]
    · simp [place, before, firstBlock, hlt]
      omega

theorem chain_leaf (hleaf : LeafOk m key h exts)
    (hread : readNode m d b = some (.leaf max gen exts)) (haddr : b < 2 ^ 48)
    (hmax : 0 < max ∧ max ≤ blockMax m) (hlen : exts.length ≤ max) (hkey : key < h)
    (hfit : F → ∀ f ∈ exts, f.block + f.count ≤ h) (hexact : E → firstBlock exts = some key) :
    Chain E m d (Rep F E m d 0) h [⟨key, b⟩] (below h (leafCells exts)) [b] :=
  .single hread haddr hmax hkey (fun hE => hleaf.exists_cell (hexact hE) hkey)
    ⟨max, gen, exts, rfl, hlen, hleaf, hfit, rfl, rfl⟩

theorem leaf_fits (hleaf : LeafOk m key h exts) (hlen : exts.length ≤ max)
    (hmax : max < 2 ^ 16) (hgen : gen < 2 ^ 32) : NodeFits (.leaf max gen exts) :=
  ⟨by omega, hmax, hgen, fun f hf => (hleaf.ok f hf).fits⟩

theorem LeafOk.of_head (hleaf : LeafOk m key h (e :: exts)) : LeafOk m e.block h (e :: exts) := by
  refine hleaf.mono fun f hf => ⟨?_, (hleaf.range f hf).2⟩
  rcases mem_cons.mp hf with rfl | hf
  · exact le_rfl
  · have hle := hleaf.head_stop hf
    omega

theorem LeafOk.halves {xs ys : List Extent} {y : Extent} (hleaf : LeafOk m key h (xs ++ y :: ys)) :
    LeafOk m key y.block xs ∧ (∀ f ∈ xs, f.block + f.count ≤ y.block) ∧
      LeafOk m y.block h (y :: ys) := by
  obtain ⟨hxs, hys⟩ := hleaf.of_append
  have hordered := hleaf.ordered
  rw [map_append, ordered_append] at hordered
  have hstop : ∀ f ∈ xs, f.block + f.count ≤ y.block := fun f hf =>
    hordered.2.2 f.run (mem_map_of_mem hf) y.run (by simp)
  refine ⟨hxs.mono fun f hf => ?_, hstop, hys.of_head⟩
  have hrange := (hxs.range f hf).1
  have hle := hstop f hf
  have hpos := (hxs.ok f hf).count_pos
  omega

end

variable {o : Outcomes} {image : Image} {j : Index}

/-- The split of the leaf `b` got as far as writing the lower half. -/
def leafHalved (A : Allocator m α) (o : Outcomes) (a : α) (b : ℕ) : Prop :=
  o.leafList ∧ (A.take a (b + 1) 1).1.1 ≠ 0 ∧ o.newLeafBuffer ∧ o.lowerLeafWrite

instance (o : Outcomes) (a : α) (b : ℕ) : Decidable (leafHalved A o a b) :=
  inferInstanceAs (Decidable (_ ∧ _ ∧ _ ∧ _))

def upperKey (all : List Extent) : ℕ := ((all.drop (all.length / 2)).head?.map Extent.block).getD 0

theorem halveLeaf_some {s s' : Store α} {all : List Extent}
    (h : halveLeaf A o s b image max gen all = (s', some j)) :
    leafHalved A o s.alloc b ∧ o.upperLeafWrite = true ∧
      j = ⟨upperKey all, (A.take s.alloc (b + 1) 1).1.1⟩ ∧
      s'.alloc = (A.take s.alloc (b + 1) 1).2 ∧ Grown A s.alloc s'.alloc [j.leaf] ∧
      s'.blocks = update (update s.blocks b
          (encode image (.leaf max gen (all.take (all.length / 2))))) j.leaf
        (encode zero (.leaf (blockMax m) gen (all.drop (all.length / 2)))) := by
  dsimp only [halveLeaf] at h
  split_ifs at h with hlist hfirst hboth hup <;> cases h
  exact ⟨⟨hlist, hfirst, Bool.and_eq_true_iff.mp hboth⟩, hup, rfl, rfl, Grown.take hfirst, rfl⟩

theorem blockMax_lt (m : Mount) : 4 < blockMax m ∧ blockMax m < 2 ^ 16 := by
  have h1 := m.le_blockSize
  have h2 := m.blockSize_le
  rw [blockMax]
  omega

theorem exists_halves {β : Type*} {all : List β} (h : 2 ≤ all.length) :
    ∃ x xs y ys, all = x :: xs ++ y :: ys ∧ all.take (all.length / 2) = x :: xs ∧
      all.drop (all.length / 2) = y :: ys := by
  obtain ⟨x, xs, hxs⟩ := exists_cons_of_length_pos (l := all.take (all.length / 2))
    (by rw [length_take]; omega)
  obtain ⟨y, ys, hys⟩ := exists_cons_of_length_pos (l := all.drop (all.length / 2))
    (by rw [length_drop]; omega)
  exact ⟨x, xs, y, ys, by rw [← hxs, ← hys, take_append_drop], hxs, hys⟩

/-- The entries of a full leaf with one more, in two halves. -/
structure Halves (m : Mount) (key h max : ℕ) (all : List Extent) (x : Extent) (xs : List Extent)
    (y : Extent) (ys : List Extent) : Prop where
  take : all.take (all.length / 2) = x :: xs
  drop : all.drop (all.length / 2) = y :: ys
  all : all = x :: xs ++ y :: ys
  lower : LeafOk m key y.block (x :: xs)
  stop : ∀ f ∈ x :: xs, f.block + f.count ≤ y.block
  upper : LeafOk m y.block h (y :: ys)
  key : key < y.block
  lt : y.block < h
  lower_len : (x :: xs).length ≤ max
  upper_len : (y :: ys).length ≤ max

variable {key h : ℕ} {exts : List Extent} {e : Extent}

theorem place_halves (hmax : 0 < max)
    (hlen : exts.length = max) (hleaf : LeafOk m key h (place e exts)) :
    ∃ x xs y ys, Halves m key h max (place e exts) x xs y ys := by
  have hplen : (place e exts).length = max + 1 := by
    rw [place, length_append, length_cons, ← hlen, ← length_before_after e exts]
    omega
  obtain ⟨x, xs, y, ys, hall, hxs, hys⟩ := exists_halves (by omega : 2 ≤ (place e exts).length)
  have hsum := congrArg length hall
  rw [hall] at hleaf
  obtain ⟨hlower, hstop, hupper⟩ := hleaf.halves
  have hrange := hupper.range y mem_cons_self
  have hxrange := hlower.range x mem_cons_self
  simp only [length_append, length_cons] at hsum ⊢
  exact ⟨x, xs, y, ys, hxs, hys, hall, hlower, hstop, hupper, by omega, hrange.2,
    by rw [length_cons]; omega, by rw [length_cons]; omega⟩

/-- **The two halves of a full leaf** are two children of its range. -/
theorem halveLeaf_chain {s s' : Store α} (hread : readNode m s.blocks b =
      some (.leaf max gen exts)) (haddr : b < 2 ^ 48) (hmax : 0 < max ∧ max ≤ blockMax m)
    (hlen : exts.length = max) (hused : ¬ A.Free s.alloc b) (hleaf : LeafOk m key h (place e exts))
    (hfit : F → ∀ f ∈ place e exts, f.block + f.count ≤ h)
    (hexact : E → firstBlock (place e exts) = some key)
    (hhalf : halveLeaf A o s b image max gen (place e exts) = (s', some j)) :
    Chain E m s'.blocks (Rep F E m s'.blocks 0) h [⟨key, b⟩, j]
        (below h (leafCells (place e exts))) [b, j.leaf] ∧
      key < j.block ∧ j.block < h ∧ Grown A s.alloc s'.alloc [j.leaf] ∧
      ∀ x, x ≠ b → x ≠ j.leaf → s'.blocks x = s.blocks x := by
  obtain ⟨-, -, hj, -, hgrown, hblocks⟩ := halveLeaf_some hhalf
  obtain ⟨x, xs, y, ys, hv⟩ := place_halves hmax.1 hlen hleaf
  rw [hv.take, hv.drop] at hblocks
  have hj : j.block = y.block := by simp [hj, upperKey, hv.drop]
  rw [hv.all] at hfit hexact ⊢
  obtain ⟨hreadable, -, -, hmax16, hgen, -⟩ := readNode_eq_some hread
  have hfree := hgrown.free_single
  have hjb : j.leaf ≠ b := fun heq => hused (heq ▸ hfree)
  have hbm := blockMax_lt m
  have hreadb : readNode m s'.blocks b = some (.leaf max gen (x :: xs)) :=
    readNode_encode hreadable (leaf_fits hv.lower hv.lower_len hmax16 hgen)
      (by rw [hblocks, update_of_ne hjb.symm, update_self])
  have hreadj : readNode m s'.blocks j.leaf = some (.leaf (blockMax m) gen (y :: ys)) :=
    readNode_encode (A.free_readable hfree).1
      (leaf_fits hv.upper (hv.upper_len.trans hmax.2) hbm.2 hgen)
      (by rw [hblocks, update_self])
  have hcells : below h (leafCells (x :: xs ++ y :: ys)) =
      below y.block (leafCells (x :: xs)) ++ below h (leafCells (y :: ys)) := by
    have hlow : ∀ c ∈ leafCells (x :: xs), c.1 < y.block := leafCells_lt hv.stop
    rw [leafCells_append, below_append, below_eq_self hlow, below_eq_self]
    intro c hc
    exact (hlow c hc).trans hv.lt
  have hchainb : Chain E m s'.blocks (Rep F E m s'.blocks 0) (next h [j]) [⟨key, b⟩]
      (below y.block (leafCells (x :: xs))) [b] := by
    rw [next, hj]
    refine chain_leaf hv.lower hreadb haddr hmax hv.lower_len hv.key (fun _ => hv.stop) ?_
    intro hE
    have hfirst := hexact hE
    rwa [firstBlock] at hfirst
  have hchainj : Chain E m s'.blocks (Rep F E m s'.blocks 0) h [j]
      (below h (leafCells (y :: ys))) [j.leaf] := by
    have hchain : Chain E m s'.blocks (Rep F E m s'.blocks 0) h [⟨y.block, j.leaf⟩]
        (below h (leafCells (y :: ys))) [j.leaf] :=
      chain_leaf hv.upper hreadj (A.free_readable hfree).2 ⟨by omega, le_rfl⟩
        (hv.upper_len.trans hmax.2) hv.lt
        (fun hF f hf => hfit hF f (mem_append_right _ hf)) (fun _ => rfl)
    rw [← hj] at hchain
    exact hchain
  refine ⟨?_, hj ▸ hv.key, hj ▸ hv.lt, hgrown, ?_⟩
  · rw [hcells]
    exact hchainb.append hchainj
  · intro z hz hzj
    rw [hblocks, update_of_ne hzj, update_of_ne hz]

/-! ## Inner nodes -/

theorem placeIndex_append {xs ys : List Index} (hxs : ∀ x ∈ xs, x.block < i.block)
    (hys : ∀ y ∈ ys, i.block ≤ y.block) : placeIndex i (xs ++ ys) = xs ++ i :: ys := by
  have hall : ∀ x ∈ xs, decide (x.block < i.block) = true := fun x hx => decide_eq_true (hxs x hx)
  rw [placeIndex, takeWhile_append_of_pos hall, dropWhile_append_of_pos hall, append_assoc]
  cases ys with
  | nil => rfl
  | cons y ys =>
    have hy : ¬ y.block < i.block := not_lt.mpr (hys y mem_cons_self)
    simp [hy]

theorem length_placeIndex (i : Index) (idxs : List Index) :
    (placeIndex i idxs).length = idxs.length + 1 := by
  have hsum := congrArg length
    (takeWhile_append_dropWhile (p := fun j : Index => decide (j.block < i.block)) (l := idxs))
  rw [length_append] at hsum
  rw [placeIndex, length_append, length_cons]
  omega

variable {idxs : List Index}

theorem insertIndexEntry_eq_some {idxs' : List Index}
    (h : insertIndexEntry max idxs i = some idxs') :
    idxs.length < max ∧ idxs' = placeIndex i idxs := by
  rw [insertIndexEntry] at h
  split at h
  · simp at h
  · exact ⟨by omega, (Option.some.inj h).symm⟩

theorem growRoot_true {o : GrowOutcomes} {s s' : Store α} {ino ino' : Inode}
    (h : growRoot A o s ino = (true, s', ino')) : ∃ b, Grown A s.alloc s'.alloc [b] ∧
      s'.blocks = update s.blocks b (encode zero (ino.root.withMax (blockMax m))) ∧
      ino' = { ino with
        blocks := ino.blocks + sectors m
        root := .index 4 (ino.root.depth + 1) ino.root.generation
          [⟨ino.root.firstLogical, b⟩] } := by
  dsimp only [growRoot] at h
  split_ifs at h with hfirst <;> cases h
  exact ⟨_, Grown.take hfirst, rfl, rfl⟩

/-- The root of a tree of depth at most 2. -/
structure RootOk (node : Node) : Prop where
  max : 0 < node.max ∧ node.max ≤ 4
  fits : NodeFits node

theorem Rep.under (hrep : Rep F E m d k key h node cs bs) (hread : readNode m d b = some node)
    (haddr : b < 2 ^ 48) (hmax : 0 < node.max ∧ node.max ≤ blockMax m) (hkey : key < h)
    (hexact : E → ∃ c ∈ cs, c.1 = key) :
    Rep F E m d (k + 1) 0 h (.index 4 (k + 1) gen [⟨key, b⟩]) cs (b :: bs) :=
  ⟨4, gen, [⟨key, b⟩], rfl, by simp, by simp, zero_le _,
    .single hread haddr hmax hkey hexact hrep⟩

theorem rootOk_single {depth : ℕ} (hdepth : 0 < depth ∧ depth < 2 ^ 16)
    (hgen : gen < 2 ^ 32) (hkey : key < h) (hh : h ≤ 2 ^ 32) (haddr : b < 2 ^ 48) :
    RootOk (.index 4 depth gen [⟨key, b⟩]) := by
  refine ⟨⟨succ_pos 3, le_rfl⟩, by simp, by decide, hdepth.1, hdepth.2, hgen, ?_⟩
  intro i hi
  rw [mem_singleton.mp hi]
  exact ⟨by dsimp only; omega, haddr⟩

/-- **`ext4_extent_add_root_index`**: the new child goes into the root, or into the node that the
entries of a full root move to. -/
theorem addRootIndex_rep {s s' : Store α} {ino ino' : Inode}
    (hroot : ino.root = .index max 1 gen idxs)
    (hok : RootOk (.index max 1 gen idxs)) (hne : idxs ≠ []) (hlen : idxs.length ≤ max)
    (hchain : Chain E m s.blocks (Rep F E m s.blocks 0) (2 ^ 32) (placeIndex j idxs) cs bs)
    (hhead : next (2 ^ 32) (placeIndex j idxs) = next (2 ^ 32) idxs)
    (hown : ∀ b ∈ bs, ¬ A.Free s.alloc b) (h : addRootIndex A o s ino j = (true, s', ino')) :
    ∃ k bs' fresh, Rep F E m s'.blocks k 0 (2 ^ 32) ino'.root cs bs' ∧ k ≤ 2 ∧ RootOk ino'.root ∧
      bs' = fresh ++ bs ∧ Grown A s.alloc s'.alloc fresh := by
  obtain ⟨hmax, hlen16, hmax16, hdpos, hdepth, hgen, hidxs⟩ := hok
  have hbm := blockMax_lt m
  have hplen := length_placeIndex j idxs
  have hpne : placeIndex j idxs ≠ [] := by
    intro hnil
    rw [hnil] at hplen
    simp at hplen
  rw [addRootIndex, hroot] at h
  dsimp only at h
  split at h
  · -- the root has room
    rename_i idxs' hins
    obtain ⟨hroom, rfl⟩ := insertIndexEntry_eq_some hins
    cases h
    refine ⟨1, bs, [], ⟨max, gen, _, rfl, by omega, hpne, zero_le _, hchain⟩, by decide,
      ⟨hmax, by omega, hmax16, by decide, by decide, hgen, hchain.fits le_rfl⟩, rfl, Grown.refl A _⟩
  rw [if_neg (by simp)] at h
  split at h
  swap
  · simp at h
  rename_i hgrow
  obtain ⟨g, hg⟩ : ∃ g, growRoot A o.growIndex s ino = g := ⟨_, rfl⟩
  obtain ⟨ok, t, gino⟩ := g
  rw [hg] at h hgrow
  subst hgrow
  obtain ⟨b, hgrown, hblocks, rfl⟩ := growRoot_true hg
  rw [hroot] at hblocks
  dsimp only [Node.withMax] at hblocks
  have hfree := hgrown.free_single
  obtain ⟨hreadable, haddr⟩ := A.free_readable hfree
  have hbbs : b ∉ bs := fun hb => hown b hb hfree
  have hread : readNode m t.blocks b = some (.index (blockMax m) 1 gen idxs) :=
    readNode_encode hreadable ⟨hlen16, hbm.2, by decide, by decide, hgen, hidxs⟩
      (by rw [hblocks, update_self])
  dsimp only at h
  split at h
  swap
  · simp at h
  rw [hread] at h
  dsimp only at h
  split at h
  swap
  · simp at h
  rename_i idxs' hins
  obtain ⟨hroom, rfl⟩ := insertIndexEntry_eq_some hins
  split at h
  swap
  · simp at h
  obtain ⟨-, hs', rfl⟩ := triple_inj h
  have hfirst : ino.root.firstLogical = next (2 ^ 32) (placeIndex j idxs) := by
    rw [hhead, hroot]
    cases idxs with
    | nil => exact absurd rfl hne
    | cons i idxs => rfl
  have hfirstlt : ino.root.firstLogical < 2 ^ 32 := by
    rw [hfirst]
    cases hp : placeIndex j idxs with
    | nil => exact absurd hp hpne
    | cons i rest => exact (hchain.keys i (by rw [hp]; simp)).2
  have hreadb : readNode m s'.blocks b =
      some (.index (blockMax m) 1 gen (placeIndex j idxs)) :=
    readNode_encode hreadable ⟨by omega, hbm.2, by decide, by decide, hgen,
      hchain.fits le_rfl⟩ (by rw [← hs', writeImage_self])
  have hframe : Chain E m s'.blocks (Rep F E m s'.blocks 0) (2 ^ 32) (placeIndex j idxs) cs bs := by
    refine hchain.move s'.blocks ?_
    intro x hx
    have hxb : x ≠ b := fun heq => hbbs (heq ▸ hx)
    rw [← hs', writeImage_other _ _ hxb, hblocks, update_of_ne hxb]
  refine ⟨2, b :: bs, [b], ?_, le_rfl, ?_, rfl, by rw [← hs']; exact hgrown⟩
  · rw [hroot] at hfirst hfirstlt ⊢
    refine Rep.under ?_ hreadb haddr ⟨by change 0 < blockMax m; omega, le_rfl⟩ hfirstlt ?_
    · exact ⟨blockMax m, gen, placeIndex j idxs, rfl, by omega, hpne, hfirst.le, hframe⟩
    intro hE
    rw [hfirst]
    exact (hchain.exact_next hE).resolve_left (by omega)
  · rw [hroot] at hfirstlt ⊢
    exact rootOk_single ⟨succ_pos _, by change 2 < 2 ^ 16; decide⟩ hgen hfirstlt le_rfl haddr

/-! ## The effect of an insertion -/

/-- The tree after the run `e` went into the leaf with the extents `exts`, whose range ends with
`h`; `cs` and `bs` are the cells and the blocks before. -/
structure EffectAt (E : Prop) (A : Allocator m α) (a : α) (s' : Store α) (root' : Node)
    (exts : List Extent) (e : Extent) (cs : List (Cell Kind)) (bs : List ℕ)
    (ws zs : List (Cell Kind)) (exts' : List Extent) (key h k : ℕ) (bs' fresh : List ℕ) :
    Prop where
  cells : cs = ws ++ (leafCells exts ++ zs)
  left : ∀ c ∈ ws, c.1 < e.block
  right : ∀ c ∈ zs, h ≤ c.1
  lt : e.block < h
  stop : ∀ f ∈ exts, f.block + f.count ≤ h
  exact : E → h = 2 ^ 32 ∨ ∃ c ∈ cs, c.1 = h
  site : Fresh m key h exts e
  inserted : Inserted exts e exts'
  rep : Rep (e.block + e.count ≤ h) E m s'.blocks k 0 (2 ^ 32) root'
    (ws ++ (below h (leafCells exts') ++ zs)) bs'
  depth : k ≤ 2
  root : RootOk root'
  perm : bs'.Perm (fresh ++ bs)
  grown : Grown A a s'.alloc fresh

/-- The tree after a successful insertion. -/
def Effect (E : Prop) (A : Allocator m α) (a : α) (s' : Store α) (root' : Node)
    (exts : List Extent) (e : Extent) (cs : List (Cell Kind)) (bs : List ℕ) : Prop :=
  ∃ ws zs exts' key h k bs' fresh,
    EffectAt E A a s' root' exts e cs bs ws zs exts' key h k bs' fresh

/-- What a run must be to go into the tree. -/
structure RunOk (m : Mount) (cs : List (Cell Kind)) (e : Extent) : Prop where
  ok : ExtentOk m e
  short : e.len < 0x8000
  hole : Hole cs e

theorem RunOk.of_append {ws xs zs : List (Cell Kind)}
    (h : RunOk m (ws ++ (xs ++ zs)) e) : RunOk m xs e :=
  ⟨h.ok, h.short, fun c hc =>
    h.hole c (mem_append_right _ (mem_append_left _ hc))⟩

/-- The leaf below an inner node that stands right above the leaves. -/
theorem Zip.leaf {cs1 cs2 cs3 : List (Cell Kind)} {bs1 bs2 bs3 : List ℕ}
    (z : Zip True E m d 0 hi pre i post node cs1 cs2 cs3 bs1 bs2 bs3) :
    ∃ max gen exts, node = .leaf max gen exts ∧ exts.length ≤ max ∧
      LeafOk m i.block (next hi post) exts ∧
      (∀ f ∈ exts, f.block + f.count ≤ next hi post) ∧ cs2 = leafCells exts ∧ bs2 = [] := by
  obtain ⟨max, gen, exts, hnode, hlen, hleaf, hfit, hcs, hbs⟩ := z.child
  have hstop := hfit trivial
  refine ⟨max, gen, exts, hnode, hlen, hleaf, hstop, ?_, hbs⟩
  rw [hcs, below_eq_self]
  exact leafCells_lt hstop

variable {x : ℕ}

section

variable {cs1 cs2 cs3 : List (Cell Kind)} {bs1 bs2 bs3 : List ℕ} {exts' : List Extent}

/-- The run fits into the leaf once the key is lowered to it. -/
theorem RunOk.fresh (hrun : RunOk m (leafCells exts) e) (hleaf : LeafOk m lo h exts)
    (hlt : e.block < h) : Fresh m (min lo e.block) h exts e :=
  ⟨hleaf.place hrun.ok (min_le_left _ _) (min_le_right _ _) hlt hrun.hole, hrun.short⟩

theorem stop_le_of_place (hstop : ∀ f ∈ exts, f.block + f.count ≤ h)
    (he : e.block + e.count ≤ h) : ∀ f ∈ place e exts, f.block + f.count ≤ h := by
  intro f hf
  rcases mem_place.mp hf with rfl | hf
  · exact he
  · exact hstop f hf

/-- The leaf with the run in it, as the only child of its range. -/
theorem Inserted.chain (hins : Inserted exts e exts')
    (hfresh : Fresh m (min lo e.block) h exts e) (hlt : e.block < h)
    (hstop : ∀ f ∈ exts, f.block + f.count ≤ h) (hexact : E → firstBlock exts = some lo)
    (hread : readNode m d b = some (.leaf max gen exts')) (haddr : b < 2 ^ 48)
    (hmax : 0 < max ∧ max ≤ blockMax m) (hlen : exts'.length ≤ max) :
    Chain E m d (Rep (e.block + e.count ≤ h) E m d 0) h [⟨min lo e.block, b⟩]
      (below h (leafCells exts')) [b] := by
  refine chain_leaf (hins.leafOk hfresh) hread haddr hmax hlen (by omega) ?_ ?_
  · intro he f hf
    obtain ⟨g, hg, hle⟩ := hins.stop_le hfresh hf
    exact hle.trans (stop_le_of_place hstop he g hg)
  · intro hE
    rw [hins.firstBlock_eq hfresh]
    exact firstBlock_place (hexact hE)

theorem leafOrReset_eq (hread : readNode m d b = some (.leaf max gen exts))
    (hlen : exts.length ≤ max) (hmax : max ≤ blockMax m) :
    leafOrReset m (d b) = (d b, max, gen, exts) := by
  obtain ⟨-, hdecode, -⟩ := readNode_eq_some hread
  rw [leafOrReset, hdecode]
  exact if_pos ⟨hlen, hmax⟩

/-- Lowering the key of the chosen child leaves the ranges on its left alone. -/
theorem key_of_best (hbest : best x idxs = some (pre, i, post)) :
    pre = [] ∨ min i.block x = i.block := by
  obtain ⟨-, -, hpre⟩ := best_eq_some hbest
  rcases hpre with hle | hnil
  · exact .inr (min_eq_left hle)
  · exact .inl hnil

theorem Zip.left_lt (z : Zip F E m d k hi pre i post node cs1 cs2 cs3 bs1 bs2 bs3)
    (hbest : best x idxs = some (pre, i, post)) : ∀ c ∈ cs1, c.1 < x := by
  intro c hc
  have hlow := z.sides.1 c hc
  rcases (best_eq_some hbest).2.2 with hle | rfl
  · omega
  have hleft := z.left
  cases hleft
  cases hc

theorem nodup_middle {zs : List ℕ} (h : (xs ++ b :: zs).Nodup) (hx : x ∈ xs ++ zs) : x ≠ b := by
  rintro rfl
  have hcount := nodup_iff_count_le_one.mp h x
  rw [count_append, count_cons_self] at hcount
  have hpos : 0 < count x (xs ++ zs) := count_pos_iff.mpr hx
  rw [count_append] at hpos
  omega

/-- A new child after the chosen one, whose key is lowered. -/
theorem Zip.placeIndex_eq (z : Zip F E m d k hi pre i post node cs1 cs2 cs3 bs1 bs2 bs3)
    (hkey : pre = [] ∨ min i.block x = i.block) (hlo : min i.block x < j.block)
    (hhi : j.block < next hi post) :
    placeIndex j (pre ++ lowerKey x i :: post) = pre ++ lowerKey x i :: j :: post := by
  rw [append_cons, placeIndex_append, append_assoc, singleton_append]
  · intro y hy
    rcases mem_append.mp hy with hy | hy
    · have hlow := (z.left.keys y hy).2
      rcases hkey with rfl | hkey
      · cases hy
      · omega
    · rw [mem_singleton.mp hy]
      exact hlo
  · intro y hy
    have hge := (z.right.keys y hy).1
    omega

/-- The leaf that a run goes into, below an inner node whose range ends with `hi`. -/
structure Target (E : Prop) (m : Mount) (d : ℕ → Image) (hi : ℕ) (pre : List Index) (i : Index)
    (post : List Index) (cs1 cs3 : List (Cell Kind)) (bs1 bs3 : List ℕ) (max generation : ℕ)
    (exts : List Extent) (e : Extent) : Prop where
  zip : Zip True E m d 0 hi pre i post (.leaf max generation exts) cs1 (leafCells exts) cs3 bs1 []
    bs3
  len : exts.length ≤ max
  stop : ∀ f ∈ exts, f.block + f.count ≤ next hi post
  lt : e.block < next hi post
  key : pre = [] ∨ min i.block e.block = i.block
  left : ∀ c ∈ cs1, c.1 < e.block
  site : Fresh m (min i.block e.block) (next hi post) exts e
  first : E → firstBlock exts = some i.block

theorem Zip.target (z : Zip True E m d 0 hi pre i post node cs1 cs2 cs3 bs1 bs2 bs3)
    (hbest : best e.block idxs = some (pre, i, post)) (hlt : e.block < hi) (hrun : RunOk m cs2 e) :
    ∃ max gen exts, node = .leaf max gen exts ∧ cs2 = leafCells exts ∧ bs2 = [] ∧
      Target E m d hi pre i post cs1 cs3 bs1 bs3 max gen exts e := by
  obtain ⟨max, gen, exts, rfl, hlen, hleaf, hstop, rfl, rfl⟩ := z.leaf
  have hlt' := lt_next_of_best hbest hlt
  refine ⟨max, gen, exts, rfl, rfl, rfl, z, hlen, hstop, hlt', key_of_best hbest,
    z.left_lt hbest, hrun.fresh hleaf hlt', ?_⟩
  intro hE
  have hbelow : below (next hi post) (leafCells exts) = leafCells exts := below_leafCells hstop
  refine hleaf.firstBlock_eq ?_
  rw [hbelow]
  exact z.exact hE

namespace Target

variable {s : Store α}

theorem done (s' : Store α) (t : Target E m s.blocks hi pre i post cs1 cs3 bs1 bs3 max gen exts e)
    (hnodup : (bs1 ++ i.leaf :: bs3).Nodup) (hins : Inserted exts e exts')
    (hlen : exts'.length ≤ max) {old : Image}
    (hs' : s'.blocks = update s.blocks i.leaf (encode old (.leaf max gen exts'))) :
    Chain E m s'.blocks (Rep (e.block + e.count ≤ next hi post) E m s'.blocks 0) hi
      (pre ++ lowerKey e.block i :: post) (cs1 ++ (below (next hi post) (leafCells exts') ++ cs3))
      (bs1 ++ i.leaf :: bs3) := by
  obtain ⟨hreadable, -, -, hmax16, hgen, -⟩ := readNode_eq_some t.zip.read
  have hread : readNode m s'.blocks i.leaf = some (.leaf max gen exts') :=
    readNode_encode hreadable (leaf_fits (hins.leafOk t.site) hlen hmax16 hgen)
      (by rw [hs', update_self])
  refine t.zip.rebuild (fun _ => trivial) ?_
    (hins.chain t.site t.lt t.stop t.first hread t.zip.address t.zip.max hlen) t.key
  intro x hx
  have hxi : x ≠ i.leaf := nodup_middle hnodup hx
  rw [hs', update_of_ne hxi]

/-- The leaf is split, and its upper half becomes the child `j`. -/
theorem split {s' : Store α} (t : Target E m s.blocks hi pre i post cs1 cs3 bs1 bs3 max gen exts e)
    (hown : Owned A s.alloc (bs1 ++ i.leaf :: bs3)) (hfull : max ≤ exts.length)
    (hhalf : halveLeaf A o s i.leaf image max gen (place e exts) = (s', some j)) :
    Chain E m s'.blocks (Rep (e.block + e.count ≤ next hi post) E m s'.blocks 0) hi
        (pre ++ lowerKey e.block i :: j :: post)
        (cs1 ++ (below (next hi post) (leafCells (place e exts)) ++ cs3))
        (bs1 ++ i.leaf :: j.leaf :: bs3) ∧
      placeIndex j (pre ++ lowerKey e.block i :: post) = pre ++ lowerKey e.block i :: j :: post ∧
      Grown A s.alloc s'.alloc [j.leaf] ∧
      ∀ x, x ≠ i.leaf → x ≠ j.leaf → s'.blocks x = s.blocks x := by
  have z := t.zip
  have hused : ¬ A.Free s.alloc i.leaf := hown.used i.leaf (by simp)
  obtain ⟨hmid, hjlo, hjhi, hgrown, hother⟩ := halveLeaf_chain
    z.read z.address z.max (le_antisymm t.len hfull) hused
    t.site.leaf (stop_le_of_place t.stop) (fun hE => firstBlock_place (t.first hE))
    hhalf
  have hjfree := hgrown.free_single
  refine ⟨?_, z.placeIndex_eq t.key hjlo hjhi, hgrown, hother⟩
  refine z.rebuild (fun _ => trivial) ?_ hmid t.key
  intro x hx
  exact hother x (nodup_middle hown.nodup hx) (hown.ne_of_free hjfree (mem_around hx))

end Target

end

variable {rootMax rootGen : ℕ}

section

variable {s s' : Store α} {ino ino' : Inode}

theorem next_lower (hi : ℕ) (post rest : List Index)
    (hkey : pre = [] ∨ min i.block x = i.block) (hpre : ∀ y ∈ pre, y.block < i.block) :
    next hi (pre ++ lowerKey x i :: rest) = min (next hi (pre ++ i :: post)) x := by
  cases pre with
  | nil => rfl
  | cons y pre =>
    have hlt := hpre y mem_cons_self
    have hmin := hkey.resolve_left (cons_ne_nil y pre)
    change y.block = min y.block x
    omega

/-- **An insertion below a root of depth 1.** -/
theorem insertBelow1_effect (hok : RootOk (.index max 1 gen idxs))
    (hrep : Rep True E m s.blocks 1 0 (2 ^ 32) (.index max 1 gen idxs) cs bs)
    (hown : Owned A s.alloc bs) (hrun : RunOk m cs e)
    (h : insertBelow1 A o s ino max gen idxs e = (true, s', ino')) :
    Effect E A s.alloc s' ino'.root (leafAt m s.blocks e.block 4 (.index max 1 gen idxs))
      e cs bs := by
  obtain ⟨max', gen', idxs', hnode, hlen, hne, -, hchain⟩ := hrep
  obtain ⟨rfl, -, rfl, rfl⟩ := Node.index.inj hnode
  obtain ⟨hmax4, hlen16, hmax16, -, -, hgen, -⟩ := hok
  have hstop32 := hrun.ok.stop
  rw [insertBelow1] at h
  obtain ⟨pre, i, post, hbest⟩ := exists_best e.block hne
  obtain ⟨rfl, -, -⟩ := best_eq_some hbest
  obtain ⟨node, cs1, cs2, cs3, bs1, bs2, bs3, rfl, rfl, z⟩ := hchain.zip
  obtain ⟨lmax, lgen, exts, rfl, rfl, rfl, t⟩ := z.target hbest (by omega) hrun.of_append
  have hends : E → next (2 ^ 32) post = 2 ^ 32 ∨
      ∃ c ∈ cs1 ++ (leafCells exts ++ cs3), c.1 = next (2 ^ 32) post := by
    intro hE
    rcases z.right.exact_next hE with heq | ⟨c, hc, hcn⟩
    · exact .inl heq
    · exact .inr ⟨c, mem_append_right _ (mem_append_right _ hc), hcn⟩
  rw [leafAt_index hbest z.read]
  rw [hbest] at h
  dsimp only at h
  split at h
  swap
  · simp at h
  rw [leafOrReset_eq z.read t.len z.max.2] at h
  split at h
  · simp at h
  · -- the leaf takes the run
    rename_i exts' hdone
    obtain ⟨hins, hlen'⟩ := insertLeafEntry_done hdone
    have hlen' := hlen' t.len
    split at h
    swap
    · simp at h
    obtain ⟨-, hs', rfl⟩ := triple_inj h
    have hnew := t.done s' hown.nodup hins hlen' (by rw [← hs']; rfl)
    refine ⟨cs1, cs3, exts', _, next (2 ^ 32) post, 1, _, [], rfl, t.left, z.sides.2, t.lt, t.stop,
      hends, t.site, hins, ⟨max, gen, _, rfl, ?_, by simp, zero_le _, hnew⟩, by decide,
      ⟨hmax4, ?_, hmax16, by decide, by decide, hgen, hnew.fits le_rfl⟩, Perm.refl _, ?_⟩
    · simpa using hlen
    · simpa using hlen16
    · rw [← hs']
      exact Grown.refl A _
  -- the leaf is full
  rename_i hfull
  obtain ⟨hfull, hins⟩ := insertLeafEntry_full hfull
  rw [splitLeaf] at h
  split at h
  · simp at h
  rename_i s1 j hhalf
  obtain ⟨hnew, hplace, hgrown, -⟩ := t.split hown hfull hhalf
  have hown1 : Owned A s1.alloc (bs1 ++ i.leaf :: j.leaf :: bs3) :=
    (hown.grow hgrown).perm (perm_iff_count.mpr fun x => by
      simp only [count_append, count_cons, count_nil]
      omega)
  generalize hadd : addRootIndex A o s1 { ino with
    root := .index max 1 gen (pre ++ lowerKey e.block i :: post) } j = r at h
  obtain ⟨ok, s2, ino2⟩ := r
  dsimp only at h
  split at h
  swap
  · simp at h
  rename_i htrue
  subst htrue
  cases h
  have hok1 : RootOk (.index max 1 gen (pre ++ lowerKey e.block i :: post)) := by
    refine ⟨hmax4, by simpa using hlen16, hmax16, by decide, by decide, hgen, ?_⟩
    intro x hx
    refine hnew.fits le_rfl x ?_
    simp only [mem_append, mem_cons] at hx ⊢
    tauto
  have hhead : next (2 ^ 32) (placeIndex j (pre ++ lowerKey e.block i :: post)) =
      next (2 ^ 32) (pre ++ lowerKey e.block i :: post) := by
    rw [hplace, next_append, next_append]
    rfl
  obtain ⟨k, bs', fresh, hrep', hk, hroot', rfl, hgrown'⟩ :=
    addRootIndex_rep rfl hok1 (by simp) (by simpa using hlen)
      (by rw [hplace]; exact hnew) hhead hown1.used hadd
  refine ⟨cs1, cs3, _, _, next (2 ^ 32) post, k, _, fresh ++ [j.leaf], rfl, t.left,
    z.sides.2, t.lt, t.stop, hends, t.site, hins, hrep', hk, hroot',
    perm_iff_count.mpr fun x => ?_, hgrown.trans hgrown'⟩
  simp only [count_append, count_cons, count_nil]
  omega

/-- An inner node right above the leaves, as the only child of its range. -/
theorem chain_index (hchain : Chain E m d (Rep F E m d 0) h idxs cs bs)
    (hread : readNode m d b = some (.index max 1 gen idxs)) (haddr : b < 2 ^ 48)
    (hmax : 0 < max ∧ max ≤ blockMax m) (hlen : idxs.length ≤ max) (hne : idxs ≠ [])
    (hlo : key ≤ next h idxs) (hkey : key < h) (hexact : E → next h idxs = key) :
    Chain E m d (Rep F E m d 1) h [⟨key, b⟩] cs (b :: bs) := by
  refine .single hread haddr hmax hkey ?_ ⟨max, gen, idxs, rfl, hlen, hne, hlo, hchain⟩
  intro hE
  have hends := hchain.exact_next hE
  rw [hexact hE] at hends
  exact hends.resolve_left hkey.ne

theorem Owned.sublist (h : Owned A a ys) (hsub : xs.Sublist ys) : Owned A a xs :=
  ⟨h.nodup.sublist hsub, fun b hb => h.used b (hsub.mem hb)⟩

theorem splitIndex_true {depth : ℕ}
    {rootIdxs : List Index} (hroot : ino.root = .index rootMax depth rootGen rootIdxs)
    (h : splitIndex A o s ino b image max gen idxs i = (true, s', ino')) :
    ∃ nb, Grown A s.alloc s'.alloc [nb] ∧ rootIdxs.length < rootMax ∧
      s'.blocks = update (update s.blocks b (encode image (.index max 1 gen
          ((placeIndex i idxs).take ((placeIndex i idxs).length / 2))))) nb
        (encode zero (.index (blockMax m) 1 gen
          ((placeIndex i idxs).drop ((placeIndex i idxs).length / 2)))) ∧
      ino'.root = .index rootMax depth rootGen (placeIndex
        ⟨(((placeIndex i idxs).drop ((placeIndex i idxs).length / 2)).head?.map Index.block).getD 0,
          nb⟩ rootIdxs) := by
  simp only [splitIndex, hroot, insertIndexEntry] at h
  split_ifs at h with _ hfirst _ _ hroom <;> cases h
  exact ⟨_, Grown.take hfirst, not_le.mp hroom, rfl, rfl⟩

/-- **The two halves of a full inner node** are two children of its range. -/
theorem splitIndex_chain (key : ℕ) {nb : ℕ} {all : List Index} {old : Image}
    (hchain : Chain E m d (Rep F E m d 0) h all cs bs) (hlen : all.length = max + 1)
    (hmax : 0 < max ∧ max ≤ blockMax m) (hmax16 : max < 2 ^ 16) (hgen : gen < 2 ^ 32)
    (hb : Readable m b ∧ b < 2 ^ 48) (hnb : Readable m nb ∧ nb < 2 ^ 48) (hne : b ≠ nb)
    (hbs : ∀ x ∈ bs, x ≠ b ∧ x ≠ nb) (hh : h ≤ 2 ^ 32) (hlo : key ≤ next h all)
    (hexact : E → next h all = key) (hd' : d' = update (update d b
        (encode old (.index max 1 gen (all.take (all.length / 2))))) nb
      (encode zero (.index (blockMax m) 1 gen (all.drop (all.length / 2))))) :
    ∃ u bs1 bs2, ((all.drop (all.length / 2)).head?.map Index.block).getD 0 = u ∧ key < u ∧ u < h ∧
      bs = bs1 ++ bs2 ∧
      Chain E m d' (Rep F E m d' 1) h [⟨key, b⟩, ⟨u, nb⟩] cs ((b :: bs1) ++ (nb :: bs2)) := by
  have hbm := blockMax_lt m
  obtain ⟨x, xs, j, us, hall, htake, hdrop⟩ := exists_halves (by omega : 2 ≤ all.length)
  rw [htake, hdrop] at hd'
  rw [hdrop]
  subst hall
  rw [length_append, length_cons, length_cons] at hlen
  have hframe : Chain E m d' (Rep F E m d' 0) h (x :: xs ++ j :: us) cs bs := by
    refine hchain.move d' ?_
    intro x hx
    rw [hd', update_of_ne (hbs x hx).2, update_of_ne (hbs x hx).1]
  have hfits := hframe.fits hh
  obtain ⟨cs1, cs2, bs1, bs2, rfl, rfl, hlower, hupper⟩ := hframe.of_append
  have hju : next h (j :: us) = j.block := rfl
  rw [next_append, hju] at hlo hexact
  have hjh := (hupper.keys j mem_cons_self).2
  have hkeyu : next j.block (x :: xs) < j.block := (hlower.keys x mem_cons_self).2
  have hreadb : readNode m d' b = some (.index max 1 gen (x :: xs)) := by
    refine readNode_encode hb.1 ⟨by rw [length_cons]; omega, hmax16, by decide, by decide, hgen, ?_⟩
      (by rw [hd', update_of_ne hne, update_self])
    exact fun i hi => hfits i (mem_append_left _ hi)
  have hreadnb : readNode m d' nb = some (.index (blockMax m) 1 gen (j :: us)) := by
    refine readNode_encode hnb.1 ⟨by rw [length_cons]; omega, hbm.2, by decide, by decide,
      hgen, ?_⟩ (by rw [hd', update_self])
    exact fun i hi => hfits i (mem_append_right _ hi)
  refine ⟨j.block, bs1, bs2, rfl, by omega, hjh, rfl, ?_⟩
  have hfirst : Chain E m d' (Rep F E m d' 1) (next h [⟨j.block, nb⟩]) [⟨key, b⟩] cs1 (b :: bs1) :=
    chain_index hlower hreadb hb.2 hmax (by rw [length_cons]; omega) (by simp) hlo
      (by change key < j.block; omega) hexact
  have hsecond : Chain E m d' (Rep F E m d' 1) h [⟨j.block, nb⟩] cs2 (nb :: bs2) :=
    chain_index hupper hreadnb hnb.2 ⟨by omega, le_rfl⟩ (by rw [length_cons]; omega)
      (by simp) le_rfl hjh fun _ => rfl
  exact hfirst.append hsecond

/-- A leaf two levels below the root: what the root and the inner node on the path look like. -/
structure Target2 (E : Prop) (m : Mount) (d : ℕ → Image) (rpre : List Index) (p : Index)
    (rpost : List Index) (rc1 rc3 : List (Cell Kind)) (rb1 rb3 : List ℕ) (max generation : ℕ)
    (pre : List Index) (i : Index) (post : List Index) (cs1 cs3 : List (Cell Kind))
    (bs1 bs3 : List ℕ) (leafMax leafGeneration : ℕ) (exts : List Extent) (e : Extent) :
    Prop where
  zip : Zip True E m d 1 (2 ^ 32) rpre p rpost (.index max 1 generation (pre ++ i :: post)) rc1
    (cs1 ++ (leafCells exts ++ cs3)) rc3 rb1 (bs1 ++ i.leaf :: bs3) rb3
  len : (pre ++ i :: post).length ≤ max
  target : Target E m d (next (2 ^ 32) rpost) pre i post cs1 cs3 bs1 bs3 leafMax leafGeneration
    exts e
  lt : e.block < next (2 ^ 32) rpost
  rkey : rpre = [] ∨ min p.block e.block = p.block
  rleft : ∀ c ∈ rc1, c.1 < e.block
  lo : p.block ≤ next (next (2 ^ 32) rpost) (pre ++ i :: post)
  first : E → next (next (2 ^ 32) rpost) (pre ++ i :: post) = p.block

theorem mem_root {p : ℕ} {ws zs : List ℕ} (h : x ∈ ws ++ zs) : x ∈ ws ++ p :: (xs ++ zs) := by
  simp only [mem_append, mem_cons] at h ⊢
  tauto

/-- The blocks of a tree of depth 2 around one leaf and one inner node. -/
theorem nodup_two {p : ℕ} {ws zs : List ℕ} (h : (ws ++ p :: ((xs ++ b :: ys) ++ zs)).Nodup) :
    p ≠ b ∧ (∀ x ∈ ws ++ zs, x ≠ p ∧ x ≠ b) ∧ ∀ x ∈ xs ++ b :: ys, x ≠ p := by
  have hcount := nodup_iff_count_le_one.mp h
  refine ⟨?_, ?_, ?_⟩
  · rintro rfl
    have hp := hcount p
    simp only [count_append, count_cons_self] at hp
    omega
  · intro x hx
    have hpos : 0 < count x (ws ++ zs) := count_pos_iff.mpr hx
    rw [count_append] at hpos
    constructor
    · rintro rfl
      have hp := hcount x
      simp only [count_append, count_cons_self] at hp
      omega
    · rintro rfl
      have hp := hcount x
      simp only [count_append, count_cons_self, count_cons] at hp
      omega
  · intro x hx
    have hpos : 0 < count x (xs ++ b :: ys) := count_pos_iff.mpr hx
    rintro rfl
    have hp := hcount x
    rw [count_append, count_cons_self, count_append] at hp
    omega

namespace Target2

variable {rpre rpost : List Index} {p : Index} {rc1 rc3 cs1 cs3 : List (Cell Kind)}
  {rb1 rb3 bs1 bs3 : List ℕ} {leafMax leafGen : ℕ} {exts' : List Extent}

section

variable (t : Target2 E m d rpre p rpost rc1 rc3 rb1 rb3 max gen pre i post cs1 cs3 bs1 bs3
  leafMax leafGen exts e)
include t

theorem range_le : next (2 ^ 32) rpost ≤ 2 ^ 32 := t.zip.right.next_le

theorem pre_lt : ∀ y ∈ pre, y.block < i.block :=
  fun y hy => (t.target.zip.left.keys y hy).2

/-- The keys of the inner node once the key of the leaf is lowered. -/
theorem next_eq (rest : List Index) :
    min p.block e.block ≤ next (next (2 ^ 32) rpost) (pre ++ lowerKey e.block i :: rest) ∧
      (E → next (next (2 ^ 32) rpost) (pre ++ lowerKey e.block i :: rest) =
        min p.block e.block) := by
  have hlo := t.lo
  have hnext := next_lower (next (2 ^ 32) rpost) post rest t.target.key t.pre_lt
  rw [hnext]
  refine ⟨by omega, ?_⟩
  intro hE
  rw [t.first hE]

end

section

variable (t : Target2 E m s.blocks rpre p rpost rc1 rc3 rb1 rb3 max gen pre i post cs1 cs3 bs1 bs3
  leafMax leafGen exts e)
include t

variable {bsm : List ℕ}

/-- The root with other children in the range of the inner node. -/
theorem effect (hins : Inserted exts e exts') (mid : List Index) (fresh : List ℕ)
    (hd : ∀ x ∈ rb1 ++ rb3, s'.blocks x = s.blocks x) (hmid : Chain E m s'.blocks
      (Rep (e.block + e.count ≤ next (next (2 ^ 32) rpost) post) E m s'.blocks 1)
      (next (2 ^ 32) rpost) mid
      (cs1 ++ (below (next (next (2 ^ 32) rpost) post) (leafCells exts') ++ cs3)) bsm)
    (hkey : next (next (2 ^ 32) rpost) mid = min p.block e.block)
    (hlen : (rpre ++ (mid ++ rpost)).length ≤ rootMax) (hmax : 0 < rootMax ∧ rootMax ≤ 4)
    (hgen : rootGen < 2 ^ 32) (hne : mid ≠ []) (hperm : (rb1 ++ (bsm ++ rb3)).Perm
      (fresh ++ (rb1 ++ p.leaf :: ((bs1 ++ i.leaf :: bs3) ++ rb3))))
    (hgrown : Grown A s.alloc s'.alloc fresh) :
    Effect E A s.alloc s' (.index rootMax 2 rootGen (rpre ++ (mid ++ rpost))) exts e
      (rc1 ++ ((cs1 ++ (leafCells exts ++ cs3)) ++ rc3))
      (rb1 ++ p.leaf :: ((bs1 ++ i.leaf :: bs3) ++ rb3)) := by
  have z := t.target.zip
  have hnew := t.zip.rebuild (fun _ => trivial) hd hmid (t.rkey.imp_right hkey.trans)
  have hcells : rc1 ++ ((cs1 ++ (below (next (next (2 ^ 32) rpost) post) (leafCells exts') ++
      cs3)) ++ rc3) = (rc1 ++ cs1) ++ (below (next (next (2 ^ 32) rpost) post) (leafCells exts') ++
      (cs3 ++ rc3)) := by simp
  rw [hcells] at hnew
  refine ⟨rc1 ++ cs1, cs3 ++ rc3, exts', _, next (next (2 ^ 32) rpost) post, 2, _, fresh,
    by simp, ?_, ?_, t.target.lt, t.target.stop, ?_, t.target.site, hins,
    ⟨rootMax, rootGen, _, rfl, hlen, ?_, zero_le _, hnew⟩, le_rfl,
    ⟨hmax, by omega, by omega, by decide, by decide, hgen, hnew.fits le_rfl⟩, hperm, hgrown⟩
  · intro c hc
    exact (mem_append.mp hc).elim (t.rleft c) (t.target.left c)
  · intro c hc
    rcases mem_append.mp hc with hc | hc
    · exact z.sides.2 c hc
    have hle := z.right.next_le
    have hge := t.zip.sides.2 c hc
    omega
  · intro hE
    rcases z.right.exact_next hE with heq | ⟨c, hc, hcn⟩
    · rw [heq]
      rcases t.zip.right.exact_next hE with heq | ⟨c, hc, hcn⟩
      · exact .inl heq
      · exact .inr ⟨c, by simp only [mem_append]; tauto, hcn⟩
    · exact .inr ⟨c, by simp only [mem_append]; tauto, hcn⟩
  · simp [hne]

variable (hrlen : (rpre ++ p :: rpost).length ≤ rootMax) (hmax : 0 < rootMax ∧ rootMax ≤ 4)
  (hgen : rootGen < 2 ^ 32)
include hrlen hmax hgen

/-- The inner node is the only child of its range again, with `idxs` for its entries. -/
theorem effect_index (hins : Inserted exts e exts') (fresh : List ℕ) {rest : List Index}
    (hd : ∀ x ∈ rb1 ++ rb3, s'.blocks x = s.blocks x) (hchain : Chain E m s'.blocks
      (Rep (e.block + e.count ≤ next (next (2 ^ 32) rpost) post) E m s'.blocks 0)
      (next (2 ^ 32) rpost) (pre ++ lowerKey e.block i :: rest)
      (cs1 ++ (below (next (next (2 ^ 32) rpost) post) (leafCells exts') ++ cs3)) bsm)
    (hread : readNode m s'.blocks p.leaf =
      some (.index max 1 gen (pre ++ lowerKey e.block i :: rest)))
    (hlen : (pre ++ lowerKey e.block i :: rest).length ≤ max)
    (hperm : bsm.Perm (fresh ++ (bs1 ++ i.leaf :: bs3)))
    (hgrown : Grown A s.alloc s'.alloc fresh) : Effect E A s.alloc s'
      (.index rootMax 2 rootGen (rpre ++ lowerKey e.block p :: rpost)) exts e
      (rc1 ++ ((cs1 ++ (leafCells exts ++ cs3)) ++ rc3))
      (rb1 ++ p.leaf :: ((bs1 ++ i.leaf :: bs3) ++ rb3)) := by
  obtain ⟨hlo, hfirst⟩ := t.next_eq rest
  have hlt := t.lt
  have hmid := chain_index hchain hread t.zip.address t.zip.max hlen (by simp) hlo (by omega) hfirst
  refine t.effect hins [lowerKey e.block p] fresh hd hmid rfl (by simpa using hrlen) hmax hgen
    (by simp) ?_ hgrown
  have hcount := perm_iff_count.mp hperm
  refine perm_iff_count.mpr fun x => ?_
  have hx := hcount x
  simp only [count_append, count_cons] at hx ⊢
  omega

section

variable (hown : Owned A s.alloc (rb1 ++ p.leaf :: ((bs1 ++ i.leaf :: bs3) ++ rb3)))
include hown

omit t hrlen hmax hgen in
theorem owned : Owned A s.alloc (bs1 ++ i.leaf :: bs3) :=
  hown.sublist (((sublist_append_left _ _).trans (sublist_cons_self _ _)).trans
    (sublist_append_right _ _))

theorem done_effect (hins : Inserted exts e exts') (hlen : exts'.length ≤ leafMax)
    {s1 : Store α}
    (hs1 : s1 = writeImage s i.leaf (encode (s.blocks i.leaf) (.leaf leafMax leafGen exts')))
    (hs' : s' = if e.block < i.block then writeImage s1 p.leaf (encode (s.blocks p.leaf)
      (.index max 1 gen (pre ++ lowerKey e.block i :: post))) else s1) :
    Effect E A s.alloc s'
      (.index rootMax 2 rootGen (rpre ++ lowerKey e.block p :: rpost)) exts e
      (rc1 ++ ((cs1 ++ (leafCells exts ++ cs3)) ++ rc3))
      (rb1 ++ p.leaf :: ((bs1 ++ i.leaf :: bs3) ++ rb3)) := by
  obtain ⟨hpi, hroot, hinner⟩ := nodup_two hown.nodup
  obtain ⟨hreadable, -, -, hmax16, -, -, hgen', -⟩ := readNode_eq_some t.zip.read
  have hlen' : (pre ++ lowerKey e.block i :: post).length ≤ max := by simpa using t.len
  have hnew := t.target.done s1 (owned hown).nodup hins hlen (by rw [hs1]; rfl)
  have hother : ∀ x, x ≠ i.leaf → s1.blocks x = s.blocks x := fun x hx => by
    rw [hs1, writeImage_other _ _ hx]
  have halloc : s1.alloc = s.alloc := by rw [hs1, writeImage_alloc]
  by_cases hlow : e.block < i.block
  swap
  · rw [if_neg hlow] at hs'
    subst hs'
    have hkeep : lowerKey e.block i = i := by rw [lowerKey, min_eq_left (by omega)]
    refine t.effect_index hrlen hmax hgen hins [] (fun x hx => hother x (hroot x hx).2) hnew ?_
      hlen' (Perm.refl _) ?_
    · rw [hkeep, readNode_congr m (hother p.leaf hpi)]
      exact t.zip.read
    · rw [halloc]
      exact Grown.refl A _
  -- the lowered key is written
  rw [if_pos hlow] at hs'
  have hframe := hnew.move s'.blocks fun x hx => by
    rw [hs', writeImage_other _ _ (hinner x hx)]
  refine t.effect_index hrlen hmax hgen hins [] ?_ hframe ?_ hlen' (Perm.refl _) ?_
  · intro x hx
    rw [hs', writeImage_other _ _ (hroot x hx).1, hother x (hroot x hx).2]
  · exact readNode_encode hreadable ⟨by omega, hmax16, by decide, by decide, hgen',
      hnew.fits t.range_le⟩ (by rw [hs', writeImage_self])
  · rw [hs', writeImage_alloc, halloc]
    exact Grown.refl A _

/-- The leaf is split, and its upper half goes into the inner node. -/
theorem split_effect (hins : Inserted exts e (place e exts)) (hfull : leafMax ≤ exts.length)
    (hroot : ino.root = .index rootMax 2 rootGen (rpre ++ lowerKey e.block p :: rpost))
    (h : splitBelow2 A o s ino p.leaf (s.blocks p.leaf) max gen
      (pre ++ lowerKey e.block i :: post) i.leaf (s.blocks i.leaf) leafMax leafGen exts e =
        (true, s', ino')) :
    Effect E A s.alloc s' ino'.root exts e (rc1 ++ ((cs1 ++ (leafCells exts ++ cs3)) ++ rc3))
      (rb1 ++ p.leaf :: ((bs1 ++ i.leaf :: bs3) ++ rb3)) := by
  obtain ⟨hpi, hroots, hinner⟩ := nodup_two hown.nodup
  obtain ⟨hreadable, -, -, hmax16, -, -, hgen', -⟩ := readNode_eq_some t.zip.read
  have hlen' : (pre ++ lowerKey e.block i :: post).length ≤ max := by simpa using t.len
  rw [splitBelow2] at h
  split at h
  · simp at h
  rename_i s1 j hhalf
  obtain ⟨hnew, hplace, hgrown, hother⟩ := t.target.split (owned hown) hfull hhalf
  have hjfree := hgrown.free_single
  have hjroots : ∀ x ∈ rb1 ++ rb3, x ≠ j.leaf := fun x hx =>
    hown.ne_of_free hjfree (mem_root hx)
  have hinnerj : ∀ x ∈ bs1 ++ i.leaf :: j.leaf :: bs3, x ≠ p.leaf := by
    intro x hx
    by_cases hj : x = j.leaf
    · exact hj ▸ (hown.ne_of_free hjfree (by simp)).symm
    · exact hinner x (by simpa [hj] using hx)
  generalize hres : addBelow2 A o s1 ino p.leaf (s.blocks p.leaf) max gen
    (pre ++ lowerKey e.block i :: post) j = r at h
  obtain ⟨ok, s2, ino2⟩ := r
  dsimp only at h
  split at h
  swap
  · simp at h
  rename_i htrue
  subst htrue
  obtain ⟨-, rfl, rfl⟩ := triple_inj h
  rw [addBelow2] at hres
  split at hres
  · -- the inner node has room
    rename_i idxs' hindex
    obtain ⟨hroom, rfl⟩ := insertIndexEntry_eq_some hindex
    rw [hplace] at hres
    split at hres
    swap
    · simp at hres
    obtain ⟨-, hs2, rfl⟩ := triple_inj hres
    have hlenj : (pre ++ lowerKey e.block i :: j :: post).length ≤ max := by
      simp only [length_append, length_cons] at hroom ⊢
      omega
    have hframe := hnew.move s2.blocks fun x hx => by
      rw [← hs2, writeImage_other _ _ (hinnerj x hx)]
    rw [hroot]
    refine t.effect_index hrlen hmax hgen hins [j.leaf] ?_ hframe ?_ hlenj
      (perm_iff_count.mpr fun x => ?_) ?_
    · intro x hx
      rw [← hs2, writeImage_other _ _ (hroots x hx).1, hother x (hroots x hx).2 (hjroots x hx)]
    · exact readNode_encode hreadable ⟨by omega, hmax16, by decide, by decide, hgen',
        hnew.fits t.range_le⟩ (by rw [← hs2, writeImage_self])
    · simp only [count_append, count_cons, count_nil]
      omega
    · rw [← hs2]
      exact hgrown
  -- the inner node is split as well
  rename_i hindex
  have hfullI : max ≤ (pre ++ lowerKey e.block i :: post).length := by
    by_contra hnot
    rw [insertIndexEntry, if_neg hnot] at hindex
    simp at hindex
  obtain ⟨nb, hgrown2, hroom, hblocks, hroot2⟩ := splitIndex_true hroot hres
  rw [hplace] at hblocks hroot2
  have hnbfree := hgrown2.free_single
  have hown1 : Owned A s1.alloc
      (j.leaf :: (rb1 ++ p.leaf :: ((bs1 ++ i.leaf :: bs3) ++ rb3))) := hown.grow hgrown
  obtain ⟨hlo, hfirst⟩ := t.next_eq (j :: post)
  have hlenj : (pre ++ lowerKey e.block i :: j :: post).length = max + 1 := by
    simp only [length_append, length_cons] at hfullI hlen' ⊢
    omega
  obtain ⟨u, bsA, bsB, hu, hku, huh, hbs, hmid⟩ := splitIndex_chain (min p.block e.block)
    hnew hlenj t.zip.max hmax16 hgen' ⟨hreadable, t.zip.address⟩ (A.free_readable hnbfree)
    (hown1.ne_of_free hnbfree (by simp)) (fun x hx => ⟨hinnerj x hx,
      hown1.ne_of_free hnbfree (by simp only [mem_append, mem_cons] at hx ⊢; tauto)⟩)
    t.range_le hlo hfirst hblocks
  have hplaceR : placeIndex ⟨u, nb⟩ (rpre ++ lowerKey e.block p :: rpost) =
      rpre ++ ([lowerKey e.block p, ⟨u, nb⟩] ++ rpost) := t.zip.placeIndex_eq t.rkey hku huh
  rw [hroot2, hu, hplaceR]
  refine t.effect hins [lowerKey e.block p, ⟨u, nb⟩] ([nb] ++ [j.leaf]) ?_ hmid
    rfl ?_ hmax hgen (by simp) (perm_iff_count.mpr fun x => ?_) (hgrown.trans hgrown2)
  · intro x hx
    have hxnb := hown1.ne_of_free hnbfree (mem_cons_of_mem _ (mem_root hx))
    rw [hblocks, update_of_ne hxnb, update_of_ne (hroots x hx).1,
      hother x (hroots x hx).2 (hjroots x hx)]
  · simp only [length_append, length_cons, length_nil] at hroom ⊢
    omega
  have hx := congrArg (count x) hbs
  simp only [count_append, count_cons, count_nil] at hx ⊢
  omega

end

end

end Target2

theorem Rep.target2
    (hrep : Rep True E m s.blocks 2 0 (2 ^ 32) (.index max 2 gen idxs) cs bs)
    (hrun : RunOk m cs e) :
    ∃ rpre p rpost rc1 rc3 rb1 rb3 imax igen pre i post cs1 cs3 bs1 bs3 lmax lgen exts,
      best e.block idxs = some (rpre, p, rpost) ∧
      best e.block (pre ++ i :: post) = some (pre, i, post) ∧
      cs = rc1 ++ ((cs1 ++ (leafCells exts ++ cs3)) ++ rc3) ∧
      bs = rb1 ++ p.leaf :: ((bs1 ++ i.leaf :: bs3) ++ rb3) ∧ idxs.length ≤ max ∧
      Target2 E m s.blocks rpre p rpost rc1 rc3 rb1 rb3 imax igen pre i post cs1 cs3 bs1 bs3 lmax
        lgen exts e := by
  obtain ⟨max', gen', idxs', hnode, hrlen, hne, -, hchain⟩ := hrep
  obtain ⟨rfl, -, rfl, rfl⟩ := Node.index.inj hnode
  have hstop32 := hrun.ok.stop
  obtain ⟨rpre, p, rpost, hrbest⟩ := exists_best e.block hne
  obtain ⟨rfl, -, -⟩ := best_eq_some hrbest
  have hlt : e.block < next (2 ^ 32) rpost := lt_next_of_best hrbest (by omega)
  obtain ⟨node, rc1, cs2, rc3, rb1, bs2, rb3, rfl, rfl, rz⟩ := hchain.zip
  obtain ⟨imax, igen, iidxs, rfl, hilen, hine, hilo, hichain⟩ := rz.child
  obtain ⟨pre, i, post, hbest⟩ := exists_best e.block hine
  obtain ⟨rfl, -, -⟩ := best_eq_some hbest
  have hfirst : E → next (next (2 ^ 32) rpost) (pre ++ i :: post) = p.block := by
    intro hE
    obtain ⟨c, hc, hcp⟩ := rz.exact hE
    have hb := hichain.bounds (fun hr => hr.bounds) c hc
    omega
  obtain ⟨node, cs1, cs2, cs3, bs1, bs2, bs3, rfl, rfl, z⟩ := hichain.zip
  obtain ⟨lmax, lgen, exts, rfl, rfl, rfl, t⟩ := z.target hbest hlt hrun.of_append.of_append
  exact ⟨rpre, p, rpost, rc1, rc3, rb1, rb3, imax, igen, pre, i, post, cs1, cs3, bs1, bs3, lmax,
    lgen, exts, hrbest, hbest, rfl, rfl, hrlen, rz, hilen, t, hlt, key_of_best hrbest,
    rz.left_lt hrbest, hilo, hfirst⟩

/-- **An insertion below a root of depth 2.** -/
theorem insertBelow2_effect (hok : RootOk (.index max 2 gen idxs))
    (hrep : Rep True E m s.blocks 2 0 (2 ^ 32) (.index max 2 gen idxs) cs bs)
    (hown : Owned A s.alloc bs) (hrun : RunOk m cs e)
    (h : insertBelow2 A o s ino max gen idxs e = (true, s', ino')) :
    Effect E A s.alloc s' ino'.root (leafAt m s.blocks e.block 4 (.index max 2 gen idxs))
      e cs bs := by
  obtain ⟨hmax4, -, -, -, -, hgen, -⟩ := hok
  obtain ⟨rpre, p, rpost, rc1, rc3, rb1, rb3, imax, igen, pre, i, post, cs1, cs3, bs1, bs3, lmax,
    lgen, exts, hrbest, hbest, rfl, rfl, hrlen, t2⟩ := hrep.target2 hrun
  obtain ⟨rfl, -, -⟩ := best_eq_some hrbest
  have hread := t2.zip.read
  have t := t2.target
  rw [leafAt_index hrbest hread, leafAt_index hbest t.zip.read]
  rw [insertBelow2, hrbest] at h
  dsimp only at h
  split at h
  swap
  · simp at h
  rw [hread] at h
  simp only [hbest] at h
  split at h
  swap
  · simp at h
  rw [t.zip.read] at h
  dsimp only at h
  split at h
  · simp at h
  · rename_i exts' hdone
    obtain ⟨hins, hlen'⟩ := insertLeafEntry_done hdone
    have hlen' := hlen' t.len
    split at h
    · split at h
      · rename_i hlow
        split at h
        · cases h
          exact t2.done_effect hrlen hmax4 hgen hown hins hlen' rfl (if_pos hlow).symm
        · simp at h
      · rename_i hlow
        cases h
        exact t2.done_effect hrlen hmax4 hgen hown hins hlen' rfl (if_neg hlow).symm
    · simp at h
  · rename_i hfull
    obtain ⟨hfull, hins⟩ := insertLeafEntry_full hfull
    exact t2.split_effect hrlen hmax4 hgen hown hins hfull rfl h

/-- A leaf root that grows becomes the only child of a root of depth 1. -/
theorem growRoot_rep {g : GrowOutcomes}
    (hroot : ino.root = .leaf max gen exts) (hok : RootOk (.leaf max gen exts))
    (hleaf : LeafOk m 0 (2 ^ 32) exts) (hstop : ∀ f ∈ exts, f.block + f.count ≤ 2 ^ 32)
    (hne : exts ≠ []) (hlen : exts.length ≤ max) (h : growRoot A g s ino = (true, s', ino')) :
    ∃ key b, Grown A s.alloc s'.alloc [b] ∧ ino'.root = .index 4 1 gen [⟨key, b⟩] ∧
      RootOk ino'.root ∧ readNode m s'.blocks b = some (.leaf (blockMax m) gen exts) ∧
      Rep True E m s'.blocks 1 0 (2 ^ 32) ino'.root (leafCells exts) [b] := by
  obtain ⟨hmax4, -, -, hgen, hfits⟩ := hok
  have hmax4 : max ≤ 4 := hmax4.2
  have hbm := blockMax_lt m
  obtain ⟨b, hgrown, hblocks, rfl⟩ := growRoot_true h
  rw [hroot] at hblocks ⊢
  obtain ⟨hreadable, haddr⟩ := A.free_readable hgrown.free_single
  have hread : readNode m s'.blocks b = some (.leaf (blockMax m) gen exts) :=
    readNode_encode hreadable ⟨by omega, hbm.2, hgen, hfits⟩ (by rw [hblocks, update_self]; rfl)
  obtain ⟨x, exts, rfl⟩ := exists_cons_of_ne_nil hne
  have hxrange := (hleaf.range x mem_cons_self).2
  have hleaf' := hleaf.of_head
  have hbelow : below (2 ^ 32) (leafCells (x :: exts)) = leafCells (x :: exts) :=
    below_leafCells hstop
  refine ⟨x.block, b, hgrown, rfl, ?_, hread, ?_⟩
  · exact rootOk_single ⟨succ_pos _, by change 1 < 2 ^ 16; decide⟩ hgen hxrange le_rfl haddr
  refine Rep.under ⟨blockMax m, gen, x :: exts, rfl, by omega, hleaf', fun _ => hstop,
    hbelow.symm, rfl⟩ hread haddr ⟨by change 0 < blockMax m; omega, le_rfl⟩ hxrange ?_
  intro _
  have hcell := hleaf'.exists_cell rfl hxrange
  rwa [hbelow] at hcell

/-- **What a successful insertion does.** -/
theorem insert_effect (hok : RootOk ino.root) (hext : ino.extents = true)
    (hrep : Rep True E m s.blocks k 0 (2 ^ 32) ino.root cs bs) (hown : Owned A s.alloc bs)
    (hrun : RunOk m cs e) (h : insert A o s ino e = (true, s', ino')) :
    Effect E A s.alloc s' ino'.root (leafAt m s.blocks e.block 4 ino.root) e cs bs := by
  have hstop32 := hrun.ok.stop
  rw [insert] at h
  split at h
  swap
  · simp at h
  rw [insertFrom] at h
  cases k with
  | zero =>
    obtain ⟨max, gen, exts, hroot, hlen, hleaf, hfit, hcs, rfl⟩ := hrep
    have hstop := hfit trivial
    have hbelow : below (2 ^ 32) (leafCells exts) = leafCells exts := below_leafCells hstop
    rw [hbelow] at hcs
    subst hcs
    rw [hroot] at h hok ⊢
    rw [leafAt_leaf]
    dsimp only at h
    split at h
    · simp at h
    · -- the root takes the run
      rename_i exts' hdone
      obtain ⟨hins, hlen'⟩ := insertLeafEntry_done hdone
      have hlen' := hlen' hlen
      have hsite := hrun.fresh hleaf (by omega)
      cases h
      obtain ⟨hmax4, -, hmax16, hgen, -⟩ := hok
      refine ⟨[], [], exts', _, 2 ^ 32, 0, [], [], by simp, by simp, by simp, by omega,
        hstop, fun _ => .inl rfl, hsite, hins, ⟨max, gen, exts', rfl, hlen', ?_, ?_, by simp,
          rfl⟩, by decide, ⟨hmax4, leaf_fits (hins.leafOk hsite) hlen' hmax16 hgen⟩,
        Perm.refl _, Grown.refl A _⟩
      · have hleaf' := hins.leafOk hsite
        rwa [zero_min] at hleaf'
      intro he f hf
      obtain ⟨g, hg, hle⟩ := hins.stop_le hsite hf
      exact hle.trans (stop_le_of_place hstop he g hg)
    -- the root grows, and the run goes below it
    rename_i hfull
    obtain ⟨hfull, -⟩ := insertLeafEntry_full hfull
    have hpos : 0 < max := hok.max.1
    have hne : exts ≠ [] := by
      rintro rfl
      rw [length_nil] at hfull
      omega
    generalize hgrow : growRoot A o.growLeaf s ino = g at h
    obtain ⟨ok, s1, ino1⟩ := g
    cases ok with
    | false => simp at h
    | true =>
      obtain ⟨key, b, hgrown, hroot1, hok1, hread, hrep1⟩ :=
        growRoot_rep hroot hok hleaf hstop hne hlen hgrow
      dsimp only at h
      rw [insertFrom, hroot1] at h
      rw [hroot1] at hok1 hrep1
      obtain ⟨ws, zs, exts', key', h', k', bs', fresh, heff⟩ :=
        insertBelow1_effect hok1 hrep1 (Owned.grow ⟨nodup_nil, by simp⟩ hgrown) hrun h
      have hbest : best e.block [⟨key, b⟩] = some ([], ⟨key, b⟩, []) := rfl
      rw [leafAt_index hbest hread] at heff
      refine ⟨ws, zs, exts', key', h', k', bs', fresh ++ [b], { heff with
        perm := ?_
        grown := hgrown.trans heff.grown }⟩
      rw [append_nil]
      exact heff.perm
  | succ k =>
    obtain ⟨max, gen, idxs, hroot, hrest⟩ := hrep
    rw [hroot] at h hok ⊢
    dsimp only at h
    split at h
    · obtain rfl : k = 0 := by omega
      exact insertBelow1_effect hok ⟨max, gen, idxs, rfl, hrest⟩ hown hrun h
    split at h
    · obtain rfl : k = 1 := by omega
      exact insertBelow2_effect hok ⟨max, gen, idxs, rfl, hrest⟩ hown hrun h
    · simp at h

end

end AvoryOS.Ext4
