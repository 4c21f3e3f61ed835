import AvoryOS.Ext4.Extent

/-!
# What an extent tree maps

`Rep` relates a node to the cells it maps and to the blocks its inner nodes and leaves lie in.
A node stands for the logical blocks from `lo` up to `hi`: in an inner node every key starts
the range of its child, and the next key ends it.

An extent may reach past the range of its leaf when the next key lies below the first extent
behind it; a lookup does not see that part, so it is not among the cells.  `F` asks that no
extent does, and `E` that every key is the first block of its child.

## Main definitions

* `ExtentOk`, `LeafOk` — the extents of a leaf.
* `Chain`, `Rep` — the children of an inner node, and a node.
* `getBlockNum_eq` — a lookup returns what the cells say.
-/

namespace AvoryOS.Ext4

open Option Bytes Ext3 Runs List Extent

variable {m : Mount}

/-! ## Choosing a child -/

variable {x : ℕ} {idxs pre post : List Index} {i : Index}

theorem best_eq_some (h : best x idxs = some (pre, i, post)) :
    idxs = pre ++ i :: post ∧ (∀ j ∈ post, x < j.block) ∧ (i.block ≤ x ∨ pre = []) := by
  induction idxs generalizing pre i post with
  | nil => simp [best] at h
  | cons k idxs ih =>
    rw [best] at h
    split at h
    · rename_i hnone
      obtain ⟨rfl, rfl, rfl⟩ : [] = pre ∧ k = i ∧ [] = post := by simpa using h
      have hnil : idxs = [] := by
        cases idxs with
        | nil => rfl
        | cons j js => rw [best] at hnone; split at hnone <;> (try split at hnone) <;> simp at hnone
      simp [hnil]
    rename_i pre' j post' hsome
    obtain ⟨hsplit, hpost, hle⟩ := ih hsome
    split at h
    · obtain ⟨rfl, rfl, rfl⟩ : k :: pre' = pre ∧ j = i ∧ post' = post := by simpa using h
      rename_i hjx
      exact ⟨by rw [hsplit, cons_append], hpost, .inl hjx⟩
    obtain ⟨rfl, rfl, rfl⟩ : [] = pre ∧ k = i ∧ idxs = post := by simpa using h
    rename_i hjx
    refine ⟨rfl, ?_, .inr rfl⟩
    have hpre : pre' = [] := hle.resolve_left hjx
    rw [hpre] at hsplit
    intro l hl
    rw [hsplit] at hl
    rcases mem_cons.mp hl with rfl | hl
    · omega
    · exact hpost l hl

theorem best_eq_none : best x idxs = none ↔ idxs = [] := by
  cases idxs with
  | nil => simp [best]
  | cons i idxs =>
    rw [best]
    split
    · simp
    · split <;> simp

theorem exists_best (x : ℕ) (hne : idxs ≠ []) :
    ∃ pre i post, best x idxs = some (pre, i, post) := by
  obtain ⟨⟨pre, i, post⟩, h⟩ := ne_none_iff_exists'.mp (mt best_eq_none.mp hne)
  exact ⟨pre, i, post, h⟩

/-! ## Extents -/

/-- The extent is one the format allows, and its blocks lie in the volume. -/
structure ExtentOk (m : Mount) (e : Extent) : Prop where
  pos : 0 < e.len
  len : e.len < 2 ^ 16
  stop : e.block + e.count < 2 ^ 32
  start : 0 < e.start
  volume : e.start + e.count ≤ m.blocksCount
  address : e.start + e.count ≤ 2 ^ 48

variable {e : Extent}

section

variable (h : ExtentOk m e)
include h

theorem ExtentOk.fits : ExtentFits e := by
  have hstop := h.stop
  have haddr := h.address
  have hpos := h.pos
  refine ⟨by omega, h.len, ?_⟩
  have hcount : 0 < e.count := by rw [Extent.count]; split <;> omega
  omega

theorem ExtentOk.count_pos : 0 < e.count := by
  have hpos := h.pos
  rw [Extent.count]
  split <;> omega

/-- The length the code uses is the one of the format, except for the longest extents. -/
theorem ExtentOk.masked_eq : e.masked = if e.kind = .longest then 0 else e.count := by
  have hlen := h.len
  rw [masked, kind, Extent.count]
  by_cases h1 : e.len < 0x8000
  · rw [if_pos h1, if_pos h1.le]
    exact Nat.mod_eq_of_lt h1
  by_cases h2 : e.len = 0x8000
  · rw [if_neg h1, if_pos h2, if_pos rfl, h2]
  · rw [if_neg h1, if_neg h2, if_neg (by decide), if_neg (by omega)]
    omega

theorem ExtentOk.masked_le : e.masked ≤ e.count := by
  rw [h.masked_eq]
  split
  · exact Nat.zero_le _
  · exact le_rfl

theorem ExtentOk.wrap : (e.block + e.masked) % 2 ^ 32 = e.block + e.masked := by
  have hstop := h.stop
  have hle := h.masked_le
  exact Nat.mod_eq_of_lt (by omega)

end

theorem kind_eq_unwritten : e.kind = .unwritten ↔ 0x8000 < e.len := by
  rw [kind]
  split
  · simp; omega
  split
  · simp; omega
  · simp; omega

theorem kind_eq_written : e.kind = .written ↔ e.len < 0x8000 := by
  rw [kind]
  split
  · simpa
  split
  · simp; omega
  · simp; omega

def leafCells (exts : List Extent) : List (Cell Kind) := cellsOf (exts.map run)

theorem leafCells_append (xs ys : List Extent) :
    leafCells (xs ++ ys) = leafCells xs ++ leafCells ys := by
  rw [leafCells, map_append, cellsOf_append, leafCells, leafCells]

theorem leafCells_cons (e : Extent) (xs : List Extent) :
    leafCells (e :: xs) = e.run.cells ++ leafCells xs := cellsOf_cons ..

variable {exts : List Extent}

theorem mem_leafCells {c : Cell Kind} :
    c ∈ leafCells exts ↔ ∃ e ∈ exts, e.block ≤ c.1 ∧ c.1 < e.block + e.count ∧
      c.2 = (e.start + (c.1 - e.block), e.kind) := by
  rw [leafCells, mem_cellsOf]
  simp [run_stop]

theorem leafCells_lt {hi : ℕ} (h : ∀ e ∈ exts, e.block + e.count ≤ hi) :
    ∀ c ∈ leafCells exts, c.1 < hi := by
  intro c hc
  obtain ⟨e, he, -, hlt, -⟩ := mem_leafCells.mp hc
  exact hlt.trans_le (h e he)

theorem below_leafCells {hi : ℕ} (h : ∀ e ∈ exts, e.block + e.count ≤ hi) :
    below hi (leafCells exts) = leafCells exts := below_eq_self (leafCells_lt h)

/-- The extents of a leaf that stands for the blocks from `lo` up to `hi`. -/
structure LeafOk (m : Mount) (lo hi : ℕ) (exts : List Extent) : Prop where
  ordered : Ordered (exts.map run)
  ok : ∀ e ∈ exts, ExtentOk m e
  range : ∀ e ∈ exts, lo ≤ e.block ∧ e.block < hi

theorem LeafOk.nil (m : Mount) (lo hi : ℕ) : LeafOk m lo hi [] :=
  ⟨Ordered.nil, by simp, by simp⟩

variable {lo hi : ℕ}

theorem LeafOk.tail (h : LeafOk m lo hi (e :: exts)) : LeafOk m lo hi exts := by
  refine ⟨?_, fun f hf => h.ok f (mem_cons_of_mem _ hf),
    fun f hf => h.range f (mem_cons_of_mem _ hf)⟩
  exact (ordered_cons.mp h.ordered).2.1

theorem LeafOk.head_stop {f : Extent}
    (h : LeafOk m lo hi (e :: exts)) (hf : f ∈ exts) : e.block + e.count ≤ f.block :=
  (ordered_cons.mp h.ordered).2.2 f.run (mem_map_of_mem hf)

theorem LeafOk.mono {lo' hi' : ℕ} (h : LeafOk m lo hi exts)
    (hrange : ∀ e ∈ exts, lo' ≤ e.block ∧ e.block < hi') : LeafOk m lo' hi' exts :=
  ⟨h.ordered, h.ok, hrange⟩

theorem LeafOk.of_append {xs ys : List Extent} (h : LeafOk m lo hi (xs ++ ys)) :
    LeafOk m lo hi xs ∧ LeafOk m lo hi ys := by
  have hordered := h.ordered
  rw [map_append, ordered_append] at hordered
  exact ⟨⟨hordered.1, fun e he => h.ok e (mem_append_left _ he),
      fun e he => h.range e (mem_append_left _ he)⟩,
    ⟨hordered.2.1, fun e he => h.ok e (mem_append_right _ he),
      fun e he => h.range e (mem_append_right _ he)⟩⟩

/-! ## Lookup in a leaf -/

/-- What a lookup makes of the cell of a block: 0 for a hole. -/
def found (cs : List (Cell Kind)) (x : ℕ) : ℕ :=
  match find cs x with
  | some (b, .written) => b
  | _ => 0

variable {cs : List (Cell Kind)}

theorem found_of_find {ds : List (Cell Kind)} (h : find cs x = find ds x) :
    found cs x = found ds x := by rw [found, found, h]

theorem found_of_none (h : ∀ c ∈ cs, c.1 ≠ x) : found cs x = 0 := by
  rw [found, find_eq_none.mpr h]

theorem find_cells_of_mem (h1 : e.block ≤ x) (h2 : x < e.block + e.count) :
    find e.run.cells x = some (e.start + (x - e.block), e.kind) :=
  (find_eq_some e.run.ascending_cells).mpr (Run.mem_cells.mpr ⟨h1, h2, rfl⟩)

theorem find_cells_of_not_mem (h : x < e.block ∨ e.block + e.count ≤ x) :
    find e.run.cells x = none := by
  rw [find_eq_none]
  intro c hc hx
  have hmem := Run.mem_cells.mp hc
  rw [run_stop, run_first] at hmem
  omega

/-- **The scan of a leaf returns what its cells say.** -/
theorem scanLeaf_eq (h : LeafOk m lo hi exts) (limit : ℕ) :
    (scanLeaf m x limit exts).1 = found (leafCells exts) x := by
  induction exts with
  | nil => rfl
  | cons e exts ih =>
    have hok := h.ok e mem_cons_self
    have hlater : e.block + e.count ≤ x ∨ ∀ c ∈ leafCells exts, c.1 ≠ x := by
      by_cases hx : e.block + e.count ≤ x
      · exact .inl hx
      right
      intro c hc hcx
      obtain ⟨f, hf, hfirst, -⟩ := mem_leafCells.mp hc
      have hstop := h.head_stop hf
      omega
    rw [scanLeaf, found, leafCells_cons, find_append]
    split
    · -- the block lies before every extent that is left
      rename_i hx
      rw [find_cells_of_not_mem (.inl hx)]
      refine (found_of_none ?_).symm
      exact hlater.resolve_left (by omega)
    have hmasked := hok.masked_eq
    rw [hok.wrap]
    split
    swap
    · rw [ih h.tail]
      by_cases hlong : e.kind = .longest ∧ x < e.block + e.count
      · -- the code does not see the blocks of the longest extents
        rw [find_cells_of_mem (by omega) hlong.2, hlong.1]
        exact found_of_none (hlater.resolve_left (by omega))
      have hstop : e.block + e.count ≤ x := by
        by_contra hnot
        have hkind : e.kind ≠ .longest := fun hk => hlong ⟨hk, by omega⟩
        rw [if_neg hkind] at hmasked
        omega
      rw [find_cells_of_not_mem (.inr hstop)]
      rfl
    rename_i hin
    have hkind : e.kind ≠ .longest := by
      intro hlong
      rw [if_pos hlong] at hmasked
      omega
    rw [if_neg hkind] at hmasked
    rw [hmasked] at hin
    have hvolume := hok.volume
    have haddress := hok.address
    have hstart := hok.start
    have hmax : maxPhysBlock = 2 ^ 48 - 1 := rfl
    rw [find_cells_of_mem (by omega) hin, some_or]
    by_cases hun : e.kind = .unwritten
    · rw [if_pos (.inl (kind_eq_unwritten.mp hun)), hun]
    have hlen : ¬ e.len > 0x8000 := fun hlt => hun (kind_eq_unwritten.mpr hlt)
    have hwritten : e.kind = .written := by
      cases hk : e.kind with
      | written => rfl
      | longest => exact absurd hk hkind
      | unwritten => exact absurd hk hun
    rw [if_neg (by omega), hwritten]

/-! ## Nodes -/

/-- The end of the range before some entries. -/
def next (hi : ℕ) : List Index → ℕ
  | [] => hi
  | j :: _ => j.block

theorem Readable.addressable {b : ℕ} (h : Readable m b) (hb : b < 2 ^ 48) : Addressable b := by
  have hmax : maxPhysBlock = 2 ^ 48 - 1 := rfl
  exact ⟨h.1, by omega⟩

theorem next_append (hi : ℕ) (xs ys : List Index) : next hi (xs ++ ys) = next (next hi ys) xs := by
  cases xs <;> rfl

/-- The children of an inner node, whose last range ends with `hi`.  `R` says what one child
stands for. -/
inductive Chain (E : Prop) (m : Mount) (d : ℕ → Image)
    (R : ℕ → ℕ → Node → List (Cell Kind) → List ℕ → Prop) (hi : ℕ) :
    List Index → List (Cell Kind) → List ℕ → Prop
  | nil : Chain E m d R hi [] [] []
  | cons {i : Index} {idxs : List Index} {node : Node} {cs cs' : List (Cell Kind)}
      {bs bs' : List ℕ} (read : readNode m d i.leaf = some node) (address : i.leaf < 2 ^ 48)
      (max : 0 < node.max ∧ node.max ≤ blockMax m) (key : i.block < next hi idxs)
      (exact : E → ∃ c ∈ cs, c.1 = i.block) (child : R i.block (next hi idxs) node cs bs)
      (rest : Chain E m d R hi idxs cs' bs') :
      Chain E m d R hi (i :: idxs) (cs ++ cs') (i.leaf :: (bs ++ bs'))

/-- The node has the given number of levels below it, stands for the blocks from `lo` up to
`hi`, maps the cells, and its children lie in the given blocks. -/
def Rep (F E : Prop) (m : Mount) (d : ℕ → Image) :
    ℕ → ℕ → ℕ → Node → List (Cell Kind) → List ℕ → Prop
  | 0, lo, hi, node, cs, bs => ∃ max generation exts, node = .leaf max generation exts ∧
      exts.length ≤ max ∧ LeafOk m lo hi exts ∧ (F → ∀ e ∈ exts, e.block + e.count ≤ hi) ∧
      cs = below hi (leafCells exts) ∧ bs = []
  | k + 1, lo, hi, node, cs, bs => ∃ max generation idxs,
      node = .index max (k + 1) generation idxs ∧ idxs.length ≤ max ∧ idxs ≠ [] ∧
      lo ≤ next hi idxs ∧ Chain E m d (Rep F E m d k) hi idxs cs bs

variable {F E : Prop} {d d' : ℕ → Image}

namespace Chain

variable {R R' : ℕ → ℕ → Node → List (Cell Kind) → List ℕ → Prop} {xs ys : List Index}
  {ds : List (Cell Kind)} {as bs : List ℕ}

theorem single {node : Node} (hread : readNode m d i.leaf = some node)
    (haddr : i.leaf < 2 ^ 48) (hmax : 0 < node.max ∧ node.max ≤ blockMax m) (hkey : i.block < hi)
    (hexact : E → ∃ c ∈ cs, c.1 = i.block) (hchild : R i.block hi node cs bs) :
    Chain E m d R hi [i] cs (i.leaf :: bs) := by
  have hchain : Chain E m d R hi [i] (cs ++ []) (i.leaf :: (bs ++ [])) :=
    .cons hread haddr hmax hkey hexact hchild .nil
  rwa [append_nil, append_nil] at hchain

theorem append (hxs : Chain E m d R (next hi ys) xs cs as) (hys : Chain E m d R hi ys ds bs) :
    Chain E m d R hi (xs ++ ys) (cs ++ ds) (as ++ bs) := by
  induction xs generalizing cs as with
  | nil => cases hxs; exact hys
  | cons i xs ih =>
    cases hxs with
    | cons read address max key exact child rest =>
      rw [← next_append] at key child
      rw [append_assoc, cons_append, cons_append, append_assoc]
      exact .cons read address max key exact child (ih rest)

theorem of_append (h : Chain E m d R hi (xs ++ ys) cs bs) : ∃ cs1 cs2 bs1 bs2,
    cs = cs1 ++ cs2 ∧ bs = bs1 ++ bs2 ∧ Chain E m d R (next hi ys) xs cs1 bs1 ∧
      Chain E m d R hi ys cs2 bs2 := by
  induction xs generalizing cs bs with
  | nil => exact ⟨[], cs, [], bs, rfl, rfl, .nil, h⟩
  | cons i xs ih =>
    rw [cons_append] at h
    cases h with
    | @cons _ _ node cs cs' bs bs' read address max key exact child rest =>
      obtain ⟨cs1, cs2, bs1, bs2, rfl, rfl, h1, h2⟩ := ih rest
      rw [next_append] at key child
      refine ⟨cs ++ cs1, cs2, i.leaf :: (bs ++ bs1), bs2, ?_, ?_, ?_, h2⟩
      · rw [append_assoc]
      · rw [cons_append, append_assoc]
      · exact .cons read address max key exact child h1

theorem frame (h : Chain E m d R hi xs cs bs) (hd : ∀ b ∈ bs, d' b = d b)
    (hR : ∀ {lo hi node cs bs}, R lo hi node cs bs → (∀ b ∈ bs, d' b = d b) →
      R' lo hi node cs bs) : Chain E m d' R' hi xs cs bs := by
  induction h with
  | nil => exact .nil
  | cons read address max key exact child rest ih =>
    refine .cons ?_ address max key exact (hR child ?_) (ih ?_)
    · rw [readNode_congr m (hd _ mem_cons_self)]
      exact read
    · intro b hb
      exact hd b (mem_cons_of_mem _ (mem_append_left _ hb))
    · intro b hb
      exact hd b (mem_cons_of_mem _ (mem_append_right _ hb))

theorem next_le (h : Chain E m d R hi xs cs bs) : next hi xs ≤ hi := by
  induction h with
  | nil => exact le_rfl
  | cons _ _ _ key _ _ _ ih => exact key.le.trans ih

theorem keys (h : Chain E m d R hi xs cs bs) :
    ∀ i ∈ xs, next hi xs ≤ i.block ∧ i.block < hi := by
  induction h with
  | nil => simp
  | cons read address max key exact child rest ih =>
    intro j hj
    rcases mem_cons.mp hj with rfl | hj
    · exact ⟨le_rfl, key.trans_le rest.next_le⟩
    · exact (ih j hj).imp_left key.le.trans

theorem bounds (h : Chain E m d R hi xs cs bs)
    (hR : ∀ {lo hi node cs bs}, R lo hi node cs bs → ∀ c ∈ cs, lo ≤ c.1 ∧ c.1 < hi) :
    ∀ c ∈ cs, next hi xs ≤ c.1 ∧ c.1 < hi := by
  induction h with
  | nil => simp
  | cons read address max key exact child rest ih =>
    intro c hc
    rcases mem_append.mp hc with hc | hc
    · exact (hR child c hc).imp_right fun hlt => hlt.trans_le rest.next_le
    · exact (ih c hc).imp_left key.le.trans

theorem ascending (h : Chain E m d R hi xs cs bs) (hR : ∀ {lo hi node cs bs}, R lo hi node cs bs →
      Ascending cs ∧ ∀ c ∈ cs, lo ≤ c.1 ∧ c.1 < hi) : Ascending cs := by
  induction h with
  | nil => exact Pairwise.nil
  | cons read address max key exact child rest ih =>
    refine ascending_append.mpr ⟨(hR child).1, ih, ?_⟩
    intro c hc e he
    have h1 := (hR child).2 c hc
    have h2 := rest.bounds (fun hr => (hR hr).2) e he
    omega

end Chain

namespace Rep

variable {k : ℕ} {node : Node} {bs : List ℕ}

section

variable (h : Rep F E m d k lo hi node cs bs)
include h

theorem bounds : ∀ c ∈ cs, lo ≤ c.1 ∧ c.1 < hi := by
  induction k generalizing lo hi node cs bs with
  | zero =>
    obtain ⟨max, gen, exts, -, -, hleaf, -, rfl, -⟩ := h
    intro c hc
    obtain ⟨hmem, hlt⟩ := mem_below.mp hc
    obtain ⟨e, he, hfirst, -⟩ := mem_leafCells.mp hmem
    have hrange := (hleaf.range e he).1
    omega
  | succ k ih =>
    obtain ⟨max, gen, idxs, -, -, -, hlo, hchain⟩ := h
    intro c hc
    have hb := hchain.bounds ih c hc
    omega

theorem ascending : Ascending cs := by
  induction k generalizing lo hi node cs bs with
  | zero =>
    obtain ⟨max, gen, exts, -, -, hleaf, -, rfl, -⟩ := h
    exact hleaf.ordered.ascending.filter _
  | succ k ih =>
    obtain ⟨max, gen, idxs, -, -, -, -, hchain⟩ := h
    exact hchain.ascending fun hr => ⟨ih hr, hr.bounds⟩

theorem frame (hd : ∀ b ∈ bs, d' b = d b) : Rep F E m d' k lo hi node cs bs := by
  induction k generalizing lo hi node cs bs with
  | zero => exact h
  | succ k ih =>
    obtain ⟨max, gen, idxs, hnode, hlen, hne, hlo, hchain⟩ := h
    exact ⟨max, gen, idxs, hnode, hlen, hne, hlo, hchain.frame hd ih⟩

theorem depth_eq : node.depth = k := by
  cases k with
  | zero => obtain ⟨max, gen, exts, rfl, -⟩ := h; rfl
  | succ k => obtain ⟨max, gen, idxs, rfl, -⟩ := h; rfl

end

end Rep

/-! ## Lookup -/

theorem find_below (hx : x < hi) : find (below hi cs) x = find cs x := by
  induction cs with
  | nil => rfl
  | cons c cs ih =>
    rw [← singleton_append, below_append, find_append, find_append]
    congr 1
    by_cases hc : c.1 < hi
    · rw [below_eq_self (by simpa using hc)]
    rw [below_eq_nil (by simpa using hc)]
    refine (find_eq_none.mpr ?_).symm
    intro e he
    rw [mem_singleton.mp he]
    omega

variable {bs : List ℕ}

/-- The child that `best` chooses has the cell of the block. -/
theorem Chain.find_child {R : ℕ → ℕ → Node → List (Cell Kind) → List ℕ → Prop}
    (h : Chain E m d R hi idxs cs bs)
    (hR : ∀ {lo hi node cs bs}, R lo hi node cs bs → ∀ c ∈ cs, lo ≤ c.1 ∧ c.1 < hi)
    (hbest : best x idxs = some (pre, i, post)) :
    ∃ node cs' bs', readNode m d i.leaf = some node ∧ R i.block (next hi post) node cs' bs' ∧
      find cs x = find cs' x := by
  obtain ⟨rfl, hpost, hpre⟩ := best_eq_some hbest
  obtain ⟨cs1, cs2, bs1, bs2, rfl, rfl, h1, h2⟩ := h.of_append
  cases h2 with
  | @cons _ _ node cs cs' bs bs' read address hmax key exact child rest =>
    refine ⟨node, cs, bs, read, child, ?_⟩
    -- the blocks of the other children lie on the other sides of the keys
    have hleft : find cs1 x = none := by
      rw [find_eq_none]
      intro c hc
      have hb := h1.bounds hR c hc
      rcases hpre with hpre | rfl
      · have hkey : next hi (i :: post) = i.block := rfl
        omega
      · cases h1
        cases hc
    have hright : find cs' x = none := by
      rw [find_eq_none]
      intro c hc
      have hb := rest.bounds hR c hc
      cases post with
      | nil =>
        cases rest
        cases hc
      | cons j post =>
        have hlt := hpost j mem_cons_self
        have hkey : next hi (j :: post) = j.block := rfl
        omega
    rw [find_append, find_append, hleft, hright, none_or, or_none]

/-- The block belongs to the range of the child that `best` chooses. -/
theorem lt_next_of_best
    (hbest : best x idxs = some (pre, i, post)) (hlt : x < hi) : x < next hi post := by
  obtain ⟨-, hpost, -⟩ := best_eq_some hbest
  cases post with
  | nil => exact hlt
  | cons j post => exact hpost j mem_cons_self

variable {k reads : ℕ} {node : Node}

/-- The extents of the leaf that a block belongs to, with the number of blocks a walk may read. -/
def leafAt (m : Mount) (d : ℕ → Image) (x : ℕ) : ℕ → Node → List Extent
  | _, .leaf _ _ exts => exts
  | 0, .index _ _ _ _ => []
  | reads + 1, .index _ _ _ idxs =>
    match best x idxs with
    | none => []
    | some (_, i, _) =>
      match readNode m d i.leaf with
      | none => []
      | some node => leafAt m d x reads node

theorem leafAt_leaf (m : Mount) (d : ℕ → Image) (x reads max gen : ℕ) (exts : List Extent) :
    leafAt m d x reads (.leaf max gen exts) = exts := by
  cases reads <;> rfl

theorem leafAt_index {max depth gen : ℕ} (hbest : best x idxs = some (pre, i, post))
    (hread : readNode m d i.leaf = some node) :
    leafAt m d x (reads + 1) (.index max depth gen idxs) = leafAt m d x reads node := by
  rw [leafAt, hbest]
  dsimp only
  rw [hread]

/-- What the format says about a block: its physical block and its kind, none in a hole. -/
def status (m : Mount) (d : ℕ → Image) (root : Node) (x : ℕ) : Option (ℕ × Kind) :=
  find (leafCells (leafAt m d x 4 root)) x

/-- A walk ends in the leaf that has the cell of the block. -/
theorem walk_leafAt (h : Rep F E m d k lo hi node cs bs) (hx : x < hi) (hk : k ≤ reads) :
    find (leafCells (leafAt m d x reads node)) x = find cs x ∧
      ∀ limit, (walk m d x reads node limit).1 = found cs x := by
  induction k generalizing lo hi node cs bs reads with
  | zero =>
    obtain ⟨max, gen, exts, rfl, -, hleaf, -, rfl, -⟩ := h
    rw [leafAt_leaf, find_below hx]
    refine ⟨rfl, fun limit => ?_⟩
    rw [walk, scanLeaf_eq hleaf]
    exact found_of_find (find_below hx).symm
  | succ k ih =>
    obtain ⟨max, gen, idxs, rfl, -, hne, -, hchain⟩ := h
    obtain ⟨reads, rfl⟩ : ∃ r, reads = r + 1 := ⟨reads - 1, by omega⟩
    obtain ⟨pre, i, post, hbest⟩ := exists_best x hne
    obtain ⟨node, cs', bs', hread, hrep, hfind⟩ := hchain.find_child (fun hr => hr.bounds) hbest
    obtain ⟨hleaf, hwalk⟩ := ih hrep (lt_next_of_best hbest hx) (by omega : k ≤ reads)
    rw [leafAt_index hbest hread, hfind]
    refine ⟨hleaf, fun limit => ?_⟩
    rw [walk, hbest]
    dsimp only
    rw [hread]
    rw [hwalk]
    exact found_of_find hfind.symm

/-- **A lookup returns what the cells say.** -/
theorem getBlockNum_eq (h : Rep F E m d k 0 hi node cs bs) (hx : x < hi) (hk : k ≤ 4) :
    getBlockNum m d node x = found cs x := (walk_leafAt h hx hk).2 _

theorem status_eq (h : Rep F E m d k 0 hi node cs bs) (hx : x < hi) (hk : k ≤ 4) :
    status m d node x = find cs x := (walk_leafAt h hx hk).1

theorem getBlockNum_eq_status (h : Rep F E m d k 0 hi node cs bs) (hx : x < hi) (hk : k ≤ 4) :
    getBlockNum m d node x = match status m d node x with
      | some (b, .written) => b
      | _ => 0 := by
  rw [getBlockNum_eq h hx hk, status_eq h hx hk, found]

end AvoryOS.Ext4
