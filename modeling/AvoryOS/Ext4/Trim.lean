import AvoryOS.Ext4.Insert

/-!
# Removing from the tree

Truncation keeps the cells below a block and frees every other block once, together with the
nodes that become empty.  `Faulty` names what lies outside the tree and can make it fail.
-/

namespace AvoryOS.Ext4

open Nat Bytes Ext3 Runs List Extent

variable {m : Mount} {α : Type*} {A : Allocator m α} {E E' F : Prop} {ok : ℕ → Bool}

/-! ## Freed blocks -/

/-- The blocks are given back one after another. -/
inductive Freed (A : Allocator m α) : α → List ℕ → α → Prop
  | nil {a : α} : Freed A a [] a
  | cons {a a' : α} {b : ℕ} {bs : List ℕ} (give : (A.give a b).1 = true)
      (rest : Freed A (A.give a b).2 bs a') : Freed A a (b :: bs) a'

theorem Freed.append {a a' a'' : α} {xs ys : List ℕ} (h1 : Freed A a xs a')
    (h2 : Freed A a' ys a'') : Freed A a (xs ++ ys) a'' := by
  induction h1 with
  | nil => exact h2
  | cons give rest ih => exact .cons give (ih h2)

variable {b : ℕ}

theorem Freed.single {a : α} (give : (A.give a b).1 = true) :
    Freed A a [b] (A.give a b).2 := .cons give .nil

variable {x : ℕ}

theorem Freed.free {a a' : α} {bs : List ℕ} (h : Freed A a bs a') (hx : A.Free a' x) :
    A.Free a x ∨ x ∈ bs := by
  induction h with
  | nil => exact .inl hx
  | cons give rest ih =>
    rcases ih hx with hfree | hmem
    · rcases A.give_free hfree with hfree | rfl
      · exact .inl hfree
      · exact .inr mem_cons_self
    · exact .inr (mem_cons_of_mem _ hmem)

/-- The free of a block of the volume can fail, or a read. -/
def Faulty (A : Allocator m α) (ok : ℕ → Bool) : Prop :=
  (∃ a b, Readable m b ∧ (A.give a b).1 = false) ∨ ∃ b, ok b = false

/-- The result has the property; there is none only if something outside failed. -/
def Settles {β : Type*} (A : Allocator m α) (ok : ℕ → Bool) (P : β → Prop) : Option β → Prop
  | none => Faulty A ok
  | some r => P r

theorem giveRun_spec (ok : ℕ → Bool) (a : α) {first n : ℕ}
    (hread : ∀ k < n, Readable m (first + k)) : ((giveRun A a first n).1 = true ∧
        Freed A a (List.range' first n) (giveRun A a first n).2) ∨
      ((giveRun A a first n).1 = false ∧ Faulty A ok) := by
  induction n with
  | zero => exact .inl ⟨rfl, .nil⟩
  | succ n ih =>
    rw [giveRun]
    rcases ih fun k hk => hread k (hk.trans (lt_succ_self n)) with
      ⟨htrue, hfreed⟩ | ⟨hfalse, hfault⟩
    · rw [if_pos htrue]
      cases hgive : (A.give (giveRun A a first n).2 (first + n)).1 with
      | true =>
        refine .inl ⟨rfl, ?_⟩
        rw [range'_1_concat]
        exact hfreed.append (.single hgive)
      | false => exact .inr ⟨rfl, .inl ⟨_, _, hread n (lt_succ_self n), hgive⟩⟩
    · rw [if_neg (by rw [hfalse]; decide)]
      exact .inr ⟨hfalse, hfault⟩

/-! ## The blocks of a map -/

def targets (cs : List (Cell Kind)) : List ℕ := cs.map fun c => c.2.1

@[simp] theorem targets_nil : targets [] = [] := rfl

theorem targets_append (cs ds : List (Cell Kind)) :
    targets (cs ++ ds) = targets cs ++ targets ds := map_append ..

theorem targets_cells (r : Run Kind) : targets r.cells = List.range' r.target r.len := by
  rw [targets, Run.cells, map_map, range'_eq_map_range]
  rfl

theorem mem_targets {cs : List (Cell Kind)} : b ∈ targets cs ↔ ∃ c ∈ cs, c.2.1 = b :=
  mem_map

/-! ## Extents -/

section

variable {e : Extent} {exts exts' : List Extent} {lo hi keep : ℕ}

/-- No block has the kind that the code does not know. -/
def Known (cs : List (Cell Kind)) : Prop := ∀ c ∈ cs, c.2.2 ≠ .longest

theorem known_append {cs ds : List (Cell Kind)} : Known (cs ++ ds) ↔ Known cs ∧ Known ds :=
  forall_mem_append

theorem ExtentOk.masked_known (hok : ExtentOk m e) (hknown : Known e.run.cells) :
    e.masked = e.count := by
  have hkind : e.kind ≠ .longest := by
    refine hknown (e.block, e.start, e.kind) (Run.mem_cells.mpr ⟨le_rfl, ?_, ?_⟩)
    · have hpos := hok.count_pos
      rw [run_stop]
      omega
    · simp
  rw [hok.masked_eq, if_neg hkind]

theorem keptLength_eq (keep : ℕ) (hok : ExtentOk m e) (hmasked : e.masked = e.count) :
    keptLength keep e = min e.count (keep - e.block) := by
  have hwrap := hok.wrap
  rw [keptLength]
  split
  · omega
  · split <;> omega

theorem run_shorten {kept : ℕ} (hok : ExtentOk m e) (hmasked : e.masked = e.count) (hpos : 0 < kept)
    (hlt : kept < e.count) : ({ e with len := e.len / 0x8000 * 0x8000 + kept } : Extent).run =
      ⟨e.block, kept, e.start, e.kind⟩ := by
  have hlen := hok.len
  rw [masked] at hmasked
  rw [run, Extent.count, kind, kind]
  dsimp only
  by_cases hmark : e.len ≤ 0x8000
  · have hlen : e.len / 0x8000 * 0x8000 + kept = kept := by omega
    rw [hlen, if_pos (by omega), if_pos (by omega), if_pos (by omega)]
  have hlen : e.len / 0x8000 * 0x8000 + kept - 0x8000 = kept := by omega
  rw [if_neg (by omega), hlen, if_neg (by omega), if_neg (by omega), if_neg (by omega),
    if_neg (by omega)]

theorem shorten_ok {kept : ℕ} (hok : ExtentOk m e) (hmasked : e.masked = e.count) (hpos : 0 < kept)
    (hlt : kept < e.count) : ExtentOk m { e with len := e.len / 0x8000 * 0x8000 + kept } := by
  have hcount : ({ e with len := e.len / 0x8000 * 0x8000 + kept } : Extent).count = kept :=
    congrArg Run.len (run_shorten hok hmasked hpos hlt)
  have hstop := hok.stop
  have hlen := hok.len
  have hvolume := hok.volume
  have haddress := hok.address
  refine ⟨by dsimp only; omega, ?_, ?_, hok.start, ?_, ?_⟩
  · rw [masked] at hmasked
    dsimp only
    omega
  · dsimp only
    omega
  · dsimp only
    omega
  · dsimp only
    omega

theorem ExtentOk.runAddressable (hok : ExtentOk m e) : RunAddressable e.start e.count := by
  have hstart := hok.start
  have hpos := hok.count_pos
  have haddress := hok.address
  have hmax : maxPhysBlock = 2 ^ 48 - 1 := rfl
  exact ⟨⟨by omega, by omega⟩, hpos, by omega⟩

theorem ExtentOk.readable (hok : ExtentOk m e) {k : ℕ} (hk : k < e.count) :
    Readable m (e.start + k) := by
  have hstart := hok.start
  have hvolume := hok.volume
  exact ⟨by omega, by omega⟩

/-- A leaf from its first extent and the extents that are left of the others. -/
theorem LeafOk.cons_of {f : Extent} (h : LeafOk m lo hi (e :: exts)) (hf : ExtentOk m f)
    (hblock : f.block = e.block) (hcount : f.count ≤ e.count) (hexts' : LeafOk m lo hi exts')
    (hcells : leafCells exts' = below keep (leafCells exts)) : LeafOk m lo hi (f :: exts') := by
  refine ⟨ordered_cons.mpr ⟨hf.count_pos, hexts'.ordered, ?_⟩, ?_, ?_⟩
  · intro r hr
    obtain ⟨g, hg, rfl⟩ := mem_map.mp hr
    have hpos := (hexts'.ok g hg).count_pos
    have hmem : (g.block, g.start, g.kind) ∈ leafCells exts' :=
      mem_leafCells.mpr ⟨g, hg, le_rfl, by omega, by simp⟩
    rw [hcells] at hmem
    obtain ⟨g', hg', hle, -⟩ := mem_leafCells.mp (mem_below.mp hmem).1
    have hstop := h.head_stop hg'
    rw [run_stop, run_first]
    omega
  · intro g hg
    rcases mem_cons.mp hg with rfl | hg
    · exact hf
    · exact hexts'.ok g hg
  intro g hg
  rcases mem_cons.mp hg with rfl | hg
  · rw [hblock]
    exact h.range e mem_cons_self
  · exact hexts'.range g hg

/-- What is left of a leaf, and what was freed. -/
structure LeafTrimmed (A : Allocator m α) (a a' : α) (lo hi keep : ℕ) (exts exts' : List Extent)
    (freed : List ℕ) : Prop where
  leaf : LeafOk m lo hi exts'
  cells : leafCells exts' = below keep (leafCells exts)
  perm : (freed ++ targets (leafCells exts')).Perm (targets (leafCells exts))
  length : exts'.length ≤ exts.length
  freed : Freed A a freed a'

theorem trimExtents_spec (ok : ℕ → Bool) (keep : ℕ) (hleaf : LeafOk m lo hi exts)
    (hknown : Known (leafCells exts)) (a : α) (n : ℕ) :
    Settles A ok (fun r => ∃ freed, LeafTrimmed A a r.2.1 lo hi keep exts r.1 freed)
      (trimExtents A keep exts a n) := by
  induction exts generalizing a n with
  | nil => exact ⟨[], LeafOk.nil m lo hi, rfl, Perm.refl _, le_rfl, .nil⟩
  | cons e exts ih =>
    rw [leafCells_cons, known_append] at hknown
    have hok := hleaf.ok e mem_cons_self
    have hmasked := hok.masked_known hknown.1
    have hkept := keptLength_eq keep hok hmasked
    have hcut := e.run.cells_cut keep
    rw [trimExtents, hkept, hmasked]
    split
    · -- the whole extent stays
      rename_i hall
      have hself : below keep e.run.cells = e.run.cells := by
        rw [← hcut, Run.cut, run_len, run_first, hall]
        rfl
      have ih := ih hleaf.tail hknown.2 a n
      cases hrest : trimExtents A keep exts a n with
      | none => rw [hrest] at ih; exact ih
      | some r =>
        rw [hrest] at ih
        obtain ⟨freed, t⟩ := ih
        refine ⟨freed, hleaf.cons_of hok rfl le_rfl t.leaf t.cells, ?_, ?_,
          succ_le_succ t.length, t.freed⟩
        · rw [leafCells_cons, leafCells_cons, below_append, hself, t.cells]
        rw [leafCells_cons, leafCells_cons, targets_append, targets_append]
        have hperm := t.perm
        rw [perm_iff_count] at hperm ⊢
        intro x
        have hx := hperm x
        simp only [count_append] at hx ⊢
        omega
    rw [if_pos hok.runAddressable]
    set kept := min e.count (keep - e.block) with hdef
    have hfreed : targets e.run.cells =
        range' e.start kept ++ range' (e.start + kept) (e.count - kept) := by
      rw [targets_cells, run_len, range'_append_1]
      congr 1
      omega
    have hread : ∀ k < e.count - kept, Readable m (e.start + kept + k) := by
      intro k hk
      rw [Nat.add_assoc]
      exact hok.readable (by omega)
    rcases giveRun_spec ok a hread with ⟨htrue, hgive⟩ | ⟨hfalse, hfault⟩
    swap
    · rw [if_neg (by rw [hfalse]; decide)]
      exact hfault
    rw [if_pos htrue]
    have ih := ih hleaf.tail hknown.2 (giveRun A a (e.start + kept) (e.count - kept)).2
      (unaccount m n (e.count - kept))
    cases hrest : trimExtents A keep exts (giveRun A a (e.start + kept) (e.count - kept)).2
        (unaccount m n (e.count - kept)) with
    | none => rw [hrest] at ih; exact ih
    | some r =>
      rw [hrest] at ih
      obtain ⟨freed, t⟩ := ih
      have hperm := t.perm
      rw [perm_iff_count] at hperm
      rw [Option.map_some]
      by_cases hzero : kept = 0
      · rw [if_pos hzero]
        have hnone : below keep e.run.cells = [] := by
          rw [← hcut, Run.cut, run_len, run_first, ← hdef, hzero]
          rfl
        have hall : range' e.start kept = [] := by rw [hzero]; rfl
        rw [hall, nil_append] at hfreed
        refine ⟨_, t.leaf, ?_, ?_, t.length.trans (le_succ _), hgive.append t.freed⟩
        · rw [leafCells_cons, below_append, hnone, t.cells, nil_append]
        rw [leafCells_cons, targets_append, hfreed, perm_iff_count]
        intro x
        have hx := hperm x
        simp only [count_append] at hx ⊢
        omega
      rw [if_neg hzero]
      have hrun := run_shorten hok hmasked (pos_of_ne_zero hzero) (by omega)
      have hcell : ({ e with len := e.len / 0x8000 * 0x8000 + kept } : Extent).run.cells =
          below keep e.run.cells := by
        rw [hrun, ← hcut]
        rfl
      refine ⟨_, hleaf.cons_of (shorten_ok hok hmasked (pos_of_ne_zero hzero) (by omega))
        rfl ?_ t.leaf t.cells, ?_, ?_, succ_le_succ t.length, hgive.append t.freed⟩
      · have hcount := congrArg Run.len hrun
        rw [run_len] at hcount
        rw [hcount]
        dsimp only
        omega
      · rw [leafCells_cons, leafCells_cons, below_append, hcell, t.cells]
      rw [leafCells_cons, leafCells_cons, targets_append, targets_append, hfreed, hrun,
        targets_cells, perm_iff_count]
      intro x
      have hx := hperm x
      simp only [count_append] at hx ⊢
      omega

end

/-! ## Ranges and keys -/

variable {R : ℕ → ℕ → Node → List (Cell Kind) → List ℕ → Prop}

section

variable {d : ℕ → Image} {k lo hi lo' hi' : ℕ} {node : Node} {cs : List (Cell Kind)} {bs : List ℕ}
  {idxs : List Index}

theorem next_mono (hhi : hi ≤ hi') : next hi idxs ≤ next hi' idxs := by
  cases idxs with
  | nil => exact hhi
  | cons i idxs => exact le_rfl

theorem Chain.widen (h : Chain E m d R hi idxs cs bs) (hhi : hi ≤ hi')
    (hR : ∀ {lo hi hi' node cs bs}, R lo hi node cs bs → hi ≤ hi' → R lo hi' node cs bs) :
    Chain E m d R hi' idxs cs bs := by
  induction h with
  | nil => exact .nil
  | cons read address max key exact child rest ih =>
    exact .cons read address max (key.trans_le (next_mono hhi)) exact (hR child (next_mono hhi)) ih

/-- A node that no extent leaves can stand for a wider range. -/
theorem Rep.widen (h : Rep True E m d k lo hi node cs bs) (hlo : lo' ≤ lo) (hhi : hi ≤ hi') :
    Rep True E m d k lo' hi' node cs bs := by
  induction k generalizing lo hi lo' hi' node cs bs with
  | zero =>
    obtain ⟨max, gen, exts, hnode, hlen, hleaf, hfit, rfl, hbs⟩ := h
    have hstop := hfit trivial
    have hcell : ∀ c ∈ leafCells exts, c.1 < hi := leafCells_lt hstop
    refine ⟨max, gen, exts, hnode, hlen, ?_, ?_, ?_, hbs⟩
    · refine hleaf.mono ?_
      intro e he
      have hrange := hleaf.range e he
      omega
    · intro _ e he
      exact (hstop e he).trans hhi
    · rw [below_eq_self hcell, below_eq_self fun c hc => (hcell c hc).trans_le hhi]
  | succ k ih =>
    obtain ⟨max, gen, idxs, hnode, hlen, hne, hle, hchain⟩ := h
    refine ⟨max, gen, idxs, hnode, hlen, hne, ?_, ?_⟩
    · exact hlo.trans (hle.trans (next_mono hhi))
    · exact hchain.widen hhi fun hr hle => ih hr le_rfl hle

theorem Chain.forget {R' : ℕ → ℕ → Node → List (Cell Kind) → List ℕ → Prop}
    (h : Chain E m d R hi idxs cs bs) (hE : E' → E)
    (hR : ∀ {lo hi node cs bs}, R lo hi node cs bs → R' lo hi node cs bs) :
    Chain E' m d R' hi idxs cs bs := by
  induction h with
  | nil => exact .nil
  | cons read address max key exact child rest ih =>
    exact .cons read address max key (fun he => exact (hE he)) (hR child) ih

theorem Rep.forget (h : Rep F E m d k lo hi node cs bs) (hE : E' → E) :
    Rep F E' m d k lo hi node cs bs := by
  induction k generalizing lo hi node cs bs with
  | zero => exact h
  | succ k ih =>
    obtain ⟨max, gen, idxs, hnode, hlen, hne, hle, hchain⟩ := h
    exact ⟨max, gen, idxs, hnode, hlen, hne, hle, hchain.forget hE ih⟩

theorem Rep.withMax {max : ℕ} (h : Rep F E m d k lo hi node cs bs) (hlen : node.entries ≤ max) :
    Rep F E m d k lo hi (node.withMax max) cs bs := by
  cases k with
  | zero =>
    obtain ⟨_, gen, exts, rfl, -, hrest⟩ := h
    exact ⟨max, gen, exts, rfl, hlen, hrest⟩
  | succ k =>
    obtain ⟨_, gen, idxs, rfl, -, hrest⟩ := h
    exact ⟨max, gen, idxs, rfl, hlen, hrest⟩

end

/-! ## Trimming a node -/

/-- What happened around the cells `cs` and the blocks `bs`, of which `bs'` are left. -/
structure Removal (A : Allocator m α) (s s' : Store α) (cs cs' : List (Cell Kind))
    (bs bs' freed : List ℕ) : Prop where
  sub : bs'.Sublist bs
  perm : (freed ++ (targets cs' ++ bs')).Perm (targets cs ++ bs)
  freed : Freed A s.alloc freed s'.alloc
  frame : ∀ b ∉ bs, s'.blocks b = s.blocks b

/-- The node with the cells that are left. -/
structure Trimmed (m : Mount) (d : ℕ → Image) (k hi : ℕ) (node node' : Node)
    (cs' : List (Cell Kind)) (bs' : List ℕ) : Prop where
  max : node'.max = node.max
  fits : NodeFits node'
  empty : node'.entries = 0 → cs' = [] ∧ bs' = []
  rep : node'.entries ≠ 0 → Rep True True m d k node'.firstLogical hi node' cs' bs' ∧
    ∃ c ∈ cs', c.1 = node'.firstLogical

variable {d : ℕ → Image}

section

variable {s : Store α} {k lo hi keep : ℕ} {node : Node} {cs : List (Cell Kind)} {bs : List ℕ}

theorem trimLeaf_spec (ok : ℕ → Bool) (keep : ℕ) (h : Rep True E m s.blocks 0 lo hi node cs bs)
    (hfits : NodeFits node) (hknown : Known cs) (n : ℕ) :
    Settles A ok (fun r => ∃ bs' freed, Trimmed m r.2.1.blocks 0 hi node r.1 (below keep cs) bs' ∧
        Removal A s r.2.1 cs (below keep cs) bs bs' freed)
      (trimNode A ok keep 0 node s n) := by
  obtain ⟨max, gen, exts, rfl, hlen, hleaf, hfit, rfl, rfl⟩ := h
  have hstop := hfit trivial
  have hself : below hi (leafCells exts) = leafCells exts := below_leafCells hstop
  rw [hself] at hknown ⊢
  have hspec := trimExtents_spec (A := A) ok keep hleaf hknown s.alloc n
  rw [trimNode]
  rcases hr : trimExtents A keep exts s.alloc n with _ | r
  · rw [hr] at hspec; exact hspec
  rw [hr] at hspec
  obtain ⟨freed, t⟩ := hspec
  have hcells : ∀ c ∈ leafCells r.1, c.1 < hi := by
    intro c hc
    rw [t.cells, ← hself] at hc
    exact (mem_below.mp (mem_below.mp hc).1).2
  refine ⟨[], freed, ⟨rfl, ?_, ?_, ?_⟩, ⟨Sublist.refl _, ?_, t.freed, fun _ _ => rfl⟩⟩
  · obtain ⟨h1, h2, h3, -⟩ := hfits
    have hle := t.length
    exact ⟨by omega, h2, h3, fun e he => (t.leaf.ok e he).fits⟩
  · intro hempty
    have hnil : r.1 = [] := length_eq_zero_iff.mp hempty
    rw [← t.cells, hnil]
    exact ⟨rfl, rfl⟩
  · intro hne
    obtain ⟨exts', a', n'⟩ := r
    rcases exts' with _ | ⟨f, rest⟩
    · exact absurd rfl hne
    have hpos := (t.leaf.ok f mem_cons_self).count_pos
    have hmem : (f.block, f.start, f.kind) ∈ leafCells (f :: rest) :=
      mem_leafCells.mpr ⟨f, mem_cons_self, le_rfl, by omega, by simp⟩
    refine ⟨⟨max, gen, f :: rest, rfl, t.length.trans hlen, ?_, ?_, ?_, rfl⟩, ?_⟩
    · refine t.leaf.mono ?_
      intro g hg
      refine ⟨?_, (t.leaf.range g hg).2⟩
      rcases mem_cons.mp hg with rfl | hg
      · exact le_rfl
      · have hstop := t.leaf.head_stop hg
        exact (le_add_right _ _).trans hstop
    · intro _ g hg
      have hpos := (t.leaf.ok g hg).count_pos
      have hlast : (g.block + (g.count - 1), g.start + (g.count - 1), g.kind) ∈
          leafCells (f :: rest) := by
        refine mem_leafCells.mpr ⟨g, hg, le_add_right _ _, by omega, ?_⟩
        simp
      have hlt := hcells _ hlast
      omega
    · rw [← t.cells, below_eq_self hcells]
    · rw [← t.cells]
      exact ⟨_, hmem, rfl⟩
  · rw [append_nil, append_nil, ← t.cells]
    exact t.perm

/-- The children that are left of some children of an inner node. -/
structure ChainTrimmed (m : Mount) (d : ℕ → Image) (k hi : ℕ) (idxs idxs' : List Index)
    (cs' : List (Cell Kind)) (bs' : List ℕ) : Prop where
  chain : Chain True m d (Rep True True m d k) hi idxs' cs' bs'
  next_le : next hi idxs ≤ next hi idxs'
  length : idxs'.length ≤ idxs.length

theorem trimChildren_spec (ok : ℕ → Bool) (keep : ℕ)
    {trimChild : Node → Store α → ℕ → Option (Node × Store α × ℕ)}
    (hchild : ∀ {s : Store α} {lo hi : ℕ} {node : Node} {cs : List (Cell Kind)} {bs : List ℕ},
      Rep True E m s.blocks k lo hi node cs bs → hi ≤ 2 ^ 32 → NodeFits node → Known cs →
      bs.Nodup → ∀ n, Settles A ok
        (fun r => ∃ bs' freed, Trimmed m r.2.1.blocks k hi node r.1 (below keep cs) bs' ∧
          Removal A s r.2.1 cs (below keep cs) bs bs' freed) (trimChild node s n))
    {idxs : List Index} (hchain : Chain E m s.blocks (Rep True E m s.blocks k) hi idxs cs bs)
    (hhi : hi ≤ 2 ^ 32) (hknown : Known cs) (hnodup : bs.Nodup) (n : ℕ) :
    Settles A ok (fun r => ∃ bs' freed,
        ChainTrimmed m r.2.1.blocks k hi idxs r.1 (below keep cs) bs' ∧
          Removal A s r.2.1 cs (below keep cs) bs bs' freed)
      (trimChildren A ok trimChild idxs s n) := by
  induction idxs generalizing s cs bs n with
  | nil =>
    cases hchain
    exact ⟨[], [], ⟨.nil, le_rfl, le_rfl⟩, Sublist.refl _, Perm.refl _, .nil, fun _ _ => rfl⟩
  | cons i idxs ih =>
    cases hchain with
    | @cons _ _ node cs cs' bs bs' read address hmax key exact child rest =>
      obtain ⟨hread, -, hfits⟩ := readNode_eq_some read
      obtain ⟨hknown, hknown'⟩ := known_append.mp hknown
      obtain ⟨hleaf, hnodup⟩ := nodup_cons.mp hnodup
      obtain ⟨hbs, hbs', hdisjoint⟩ := nodup_append'.mp hnodup
      have haddr := hread.addressable address
      have hnext : next hi idxs ≤ 2 ^ 32 := rest.next_le.trans hhi
      rw [trimChildren]
      by_cases hok : ok i.leaf = true
      swap
      · rw [if_neg fun h => hok h.2]
        exact .inr ⟨i.leaf, by simpa using hok⟩
      rw [if_pos ⟨haddr, hok⟩, read]
      dsimp only
      have hspec := hchild child hnext hfits hknown hbs n
      rcases hr : trimChild node s n with _ | r
      · rw [hr] at hspec; exact hspec
      obtain ⟨node', s1, n1⟩ := r
      rw [hr] at hspec
      obtain ⟨cb, cfreed, t, rem⟩ := hspec
      dsimp only at t rem ⊢
      by_cases hempty : node'.entries = 0
      · -- the empty child is freed
        obtain ⟨hcs, rfl⟩ := t.empty hempty
        rw [if_pos hempty]
        rcases hgive : (A.give s1.alloc i.leaf).1 with _ | _
        · exact .inl ⟨_, _, hread, hgive⟩
        have hframe : ∀ b ∈ bs', s1.blocks b = s.blocks b := fun b hb =>
          rem.frame b fun hb' => hdisjoint hb' hb
        have ih := ih (s := { s1 with alloc := (A.give s1.alloc i.leaf).2 })
          (rest.move s1.blocks hframe) hknown' hbs' (unaccount m n1 1)
        cases hr' : trimChildren A ok trimChild idxs
            { s1 with alloc := (A.give s1.alloc i.leaf).2 } (unaccount m n1 1) with
        | none => rw [hr'] at ih; exact ih
        | some r =>
          rw [hr'] at ih
          obtain ⟨rb, rfreed, u, rem'⟩ := ih
          refine ⟨rb, cfreed ++ i.leaf :: rfreed, ⟨?_, ?_, ?_⟩, ⟨?_, ?_, ?_, ?_⟩⟩
          · rw [below_append, hcs]
            exact u.chain
          · exact key.le.trans u.next_le
          · exact u.length.trans (le_succ _)
          · exact rem'.sub.trans (sublist_append_right _ _ |>.cons _)
          · have h1 := rem.perm
            have h2 := rem'.perm
            rw [hcs] at h1
            rw [below_append, hcs, nil_append, targets_append]
            rw [perm_iff_count] at h1 h2 ⊢
            intro x
            have h1 := h1 x
            have h2 := h2 x
            simp only [count_append, count_cons, targets_nil, count_nil] at h1 h2 ⊢
            omega
          · exact rem.freed.append (.cons hgive rem'.freed)
          intro b hb
          rw [mem_cons, mem_append, not_or, not_or] at hb
          exact (rem'.frame b hb.2.2).trans (rem.frame b hb.2.1)
      rw [if_neg hempty]
      obtain ⟨hrep, hexact⟩ := t.rep hempty
      have hcb : ∀ b ∈ cb, b ∈ bs := fun b hb => rem.sub.subset hb
      have hleafb : i.leaf ∉ bs ∧ i.leaf ∉ bs' := by
        rw [← not_or, ← mem_append]
        exact hleaf
      have hframe : ∀ b ∈ bs',
          (writeImage s1 i.leaf (encode (s.blocks i.leaf) node')).blocks b = s.blocks b := by
        intro b hb
        have hne : b ≠ i.leaf := fun heq => hleafb.2 (heq ▸ hb)
        rw [writeImage_other _ _ hne]
        exact rem.frame b fun hb' => hdisjoint hb' hb
      have ih := ih (rest.move _ hframe) hknown' hbs' n1
      cases hr' : trimChildren A ok trimChild idxs
          (writeImage s1 i.leaf (encode (s.blocks i.leaf) node')) n1 with
      | none => rw [hr'] at ih; exact ih
      | some r =>
        rw [hr'] at ih
        obtain ⟨rb, rfreed, u, rem'⟩ := ih
        have hleaf' : r.2.1.blocks i.leaf = encode (s.blocks i.leaf) node' := by
          rw [rem'.frame i.leaf hleafb.2, writeImage_self]
        have hsame : ∀ b ∈ cb, r.2.1.blocks b = s1.blocks b := by
          intro b hb
          have hne : b ≠ i.leaf := fun heq => hleafb.1 (heq ▸ hcb b hb)
          rw [rem'.frame b fun hb' => hdisjoint (hcb b hb) hb', writeImage_other _ _ hne]
        obtain ⟨c, hc, hfirst⟩ := hexact
        have hclt := (hrep.bounds c hc).2
        refine ⟨i.leaf :: (cb ++ rb), cfreed ++ rfreed, ⟨?_, ?_, ?_⟩,
          ⟨?_, ?_, rem.freed.append rem'.freed, ?_⟩⟩
        · rw [below_append]
          refine .cons (readNode_encode hread t.fits hleaf') address
            (by rw [t.max]; exact hmax) ?_ (fun _ => ⟨c, hc, hfirst⟩) ?_ u.chain
          · rw [hfirst] at hclt
            exact hclt.trans_le u.next_le
          · exact (hrep.frame hsame).widen le_rfl u.next_le
        · have hle := child.bounds c (mem_below.mp hc).1
          rw [hfirst] at hle
          exact hle.1
        · exact succ_le_succ u.length
        · exact (rem.sub.append rem'.sub).cons_cons _
        · have h1 := rem.perm
          have h2 := rem'.perm
          rw [below_append, targets_append, targets_append]
          rw [perm_iff_count] at h1 h2 ⊢
          intro x
          have h1 := h1 x
          have h2 := h2 x
          simp only [count_append, count_cons] at h1 h2 ⊢
          omega
        · intro b hb
          rw [mem_cons, mem_append, not_or, not_or] at hb
          rw [rem'.frame b hb.2.2, writeImage_other _ _ hb.1, rem.frame b hb.2.1]

/-- **`ext4_extent_trim_node`** keeps the cells below the block, and frees every other one once. -/
theorem trimNode_spec (ok : ℕ → Bool) (keep : ℕ)
    (h : Rep True E m s.blocks k lo hi node cs bs) (hhi : hi ≤ 2 ^ 32) (hfits : NodeFits node)
    (hknown : Known cs) (hnodup : bs.Nodup) (n : ℕ) :
    Settles A ok (fun r => ∃ bs' freed, Trimmed m r.2.1.blocks k hi node r.1 (below keep cs) bs' ∧
        Removal A s r.2.1 cs (below keep cs) bs bs' freed)
      (trimNode A ok keep k node s n) := by
  induction k generalizing s lo hi node cs bs n with
  | zero => exact trimLeaf_spec ok keep h hfits hknown n
  | succ k ih =>
    obtain ⟨max, gen, idxs, rfl, hlen, hne, hlo, hchain⟩ := h
    have hspec := trimChildren_spec ok keep ih hchain hhi hknown hnodup n
    rw [trimNode]
    rcases hr : trimChildren A ok (trimNode A ok keep k) idxs s n with _ | r
    · rw [hr] at hspec; exact hspec
    rw [hr] at hspec
    obtain ⟨bs', freed, t, rem⟩ := hspec
    refine ⟨bs', freed, ⟨rfl, ?_, ?_, ?_⟩, rem⟩
    · obtain ⟨h1, h2, h3, h4, h5, -⟩ := hfits
      have hle := t.length
      exact ⟨by omega, h2, h3, h4, h5, t.chain.fits hhi⟩
    · intro hempty
      have hchain' := t.chain
      rw [length_eq_zero_iff.mp hempty] at hchain'
      generalize below keep cs = cs' at hchain'
      cases hchain'
      exact ⟨rfl, rfl⟩
    intro hentries
    obtain ⟨idxs', s', n'⟩ := r
    cases idxs' with
    | nil => exact absurd rfl hentries
    | cons i rest =>
      refine ⟨⟨max, gen, i :: rest, rfl, t.length.trans hlen, by simp, le_rfl, t.chain⟩, ?_⟩
      have hkey := (t.chain.keys i mem_cons_self).2
      refine (t.chain.exact_next trivial).resolve_left ?_
      change i.block ≠ hi
      omega

/-! ## Freeing a node -/

theorem freeExtents_spec (ok : ℕ → Bool) {exts : List Extent} (hleaf : LeafOk m lo hi exts)
    (hknown : Known (leafCells exts)) (a : α) : ((freeExtents A exts a).1 = true ∧
        Freed A a (targets (leafCells exts)) (freeExtents A exts a).2) ∨
      ((freeExtents A exts a).1 = false ∧ Faulty A ok) := by
  induction exts generalizing a with
  | nil => exact .inl ⟨rfl, .nil⟩
  | cons e exts ih =>
    rw [leafCells_cons, known_append] at hknown
    have hok := hleaf.ok e mem_cons_self
    have hmasked := hok.masked_known hknown.1
    rw [freeExtents, hmasked, if_pos hok.runAddressable]
    rcases giveRun_spec ok a fun k hk => hok.readable hk with ⟨htrue, hfreed⟩ | ⟨hfalse, hfault⟩
    · rw [if_pos htrue, leafCells_cons, targets_append, targets_cells]
      refine (ih hleaf.tail hknown.2 _).imp ?_ id
      rintro ⟨hrest, hfreed'⟩
      exact ⟨hrest, hfreed.append hfreed'⟩
    · rw [if_neg (by rw [hfalse]; decide)]
      exact .inr ⟨hfalse, hfault⟩

/-- Everything below a node was freed, or something outside failed. -/
def FreesAll (A : Allocator m α) (ok : ℕ → Bool) (a : α) (r : Bool × α) (cs : List (Cell Kind))
    (bs : List ℕ) : Prop :=
  (r.1 = true ∧ ∃ freed, Freed A a freed r.2 ∧ freed.Perm (targets cs ++ bs)) ∨
    (r.1 = false ∧ Faulty A ok)

theorem freeChildren_spec {freeChild : Node → α → Bool × α} {idxs : List Index}
    (hchild : ∀ {lo hi : ℕ} {node : Node} {cs : List (Cell Kind)} {bs : List ℕ},
      R lo hi node cs bs → Known cs → ∀ a, FreesAll A ok a (freeChild node a) cs bs)
    (hchain : Chain E m d R hi idxs cs bs) (hknown : Known cs) (a : α) :
    FreesAll A ok a (freeChildren A d ok freeChild idxs a) cs bs := by
  induction hchain generalizing a with
  | nil => exact .inl ⟨rfl, [], .nil, Perm.refl _⟩
  | @cons i idxs node cs cs' bs bs' read address max key exact child rest ih =>
    obtain ⟨hknown, hknown'⟩ := known_append.mp hknown
    have haddr := (readNode_eq_some read).1.addressable address
    rw [freeChildren]
    by_cases hok : ok i.leaf = true
    swap
    · rw [if_neg fun h => hok h.2]
      exact .inr ⟨rfl, .inr ⟨i.leaf, by simpa using hok⟩⟩
    rw [if_pos ⟨haddr, hok⟩, read]
    dsimp only
    rcases hchild child hknown a with ⟨htrue, freed, hfreed, hperm⟩ | ⟨hfalse, hfault⟩
    swap
    · rw [if_neg (by rw [hfalse]; decide)]
      exact .inr ⟨hfalse, hfault⟩
    rw [if_pos htrue]
    cases hgive : (A.give (freeChild node a).2 i.leaf).1 with
    | false => exact .inr ⟨hgive, .inl ⟨_, _, (readNode_eq_some read).1, hgive⟩⟩
    | true =>
      refine (ih hknown' _).imp ?_ id
      rintro ⟨hrest, freed', hfreed', hperm'⟩
      refine ⟨hrest, freed ++ i.leaf :: freed', hfreed.append (.cons hgive hfreed'), ?_⟩
      rw [targets_append]
      rw [perm_iff_count] at hperm hperm' ⊢
      intro x
      have h1 := hperm x
      have h2 := hperm' x
      simp only [count_append, count_cons] at h1 h2 ⊢
      omega

/-- **`ext4_extent_free_node`** frees every block below the node once. -/
theorem freeNode_spec (ok : ℕ → Bool) (h : Rep True E m d k lo hi node cs bs) (hknown : Known cs)
    (a : α) : FreesAll A ok a (freeNode A d ok k node a) cs bs := by
  induction k generalizing lo hi node cs bs a with
  | zero =>
    obtain ⟨max, gen, exts, rfl, -, hleaf, hfit, rfl, rfl⟩ := h
    have hself : below hi (leafCells exts) = leafCells exts := below_leafCells (hfit trivial)
    rw [hself] at hknown ⊢
    refine (freeExtents_spec ok hleaf hknown a).imp ?_ id
    rintro ⟨htrue, hfreed⟩
    exact ⟨htrue, _, hfreed, by rw [append_nil]⟩
  | succ k ih =>
    obtain ⟨max, gen, idxs, rfl, -, -, -, hchain⟩ := h
    exact freeChildren_spec (R := Rep True E m d k) ih hchain hknown a

/-! ## Truncation -/

theorem nodeFits_withMax (h : NodeFits node) : NodeFits (node.withMax 4) := by
  cases node with
  | leaf max gen exts => exact ⟨h.1, by decide, h.2.2⟩
  | index max depth gen idxs => exact ⟨h.1, by decide, h.2.2⟩

/-- **`ext4_extent_collapse_root`** takes the only child of the root into the inode. -/
theorem collapseRoot_spec (ok : ℕ → Bool) {ino : Inode}
    (hrep : Rep True E m s.blocks k lo hi ino.root cs bs) (hok : RootOk ino.root) :
    Settles A ok (fun r => ∃ k' bs' freed, Rep True E m s.blocks k' 0 hi r.2.root cs bs' ∧ k' ≤ k ∧
        RootOk r.2.root ∧ bs'.Sublist bs ∧ (freed ++ bs').Perm bs ∧
        Freed A s.alloc freed r.1.alloc ∧ r.1.blocks = s.blocks ∧
        r.2 = { ino with root := r.2.root, blocks := r.2.blocks })
      (collapseRoot A ok s ino) := by
  have hsame : ∃ k' bs' freed, Rep True E m s.blocks k' 0 hi ino.root cs bs' ∧ k' ≤ k ∧
      RootOk ino.root ∧ bs'.Sublist bs ∧ (freed ++ bs').Perm bs ∧
      Freed A s.alloc freed s.alloc ∧ s.blocks = s.blocks ∧
      ino = { ino with root := ino.root, blocks := ino.blocks } :=
    ⟨k, bs, [], hrep.widen (zero_le _) le_rfl, le_rfl, hok, Sublist.refl _,
      Perm.refl _, .nil, rfl, rfl⟩
  rw [collapseRoot]
  split
  swap
  · exact hsame
  rename_i max depth gen i hroot
  rcases k with _ | k
  · obtain ⟨_, _, _, hnode, -⟩ := hrep
    rw [hroot] at hnode
    simp at hnode
  obtain ⟨_, _, idxs, hnode, -, -, -, hchain⟩ := hrep
  rw [hroot] at hnode
  obtain ⟨-, -, -, rfl⟩ := Node.index.inj hnode
  cases hchain with
  | @cons _ _ node cs cs' bs bs' read address hmax key exact child rest =>
    cases rest
    obtain ⟨hread, -, hfits⟩ := readNode_eq_some read
    have haddr := hread.addressable address
    by_cases hoki : ok i.leaf = true
    swap
    · rw [if_neg fun h => hoki h.2.1]
      exact .inr ⟨i.leaf, by simpa using hoki⟩
    rw [if_pos ⟨haddr, hoki, hread.2⟩, read]
    dsimp only
    split
    · exact hsame
    cases hgive : (A.give s.alloc i.leaf).1 with
    | false => exact .inl ⟨_, _, hread, hgive⟩
    | true =>
      refine ⟨k, bs, [i.leaf], ?_, le_succ k, ⟨?_, nodeFits_withMax hfits⟩, ?_, ?_,
        .single hgive, rfl, rfl⟩
      · rw [append_nil]
        exact (child.widen (zero_le _) le_rfl).withMax (by omega)
      · cases node <;> exact ⟨succ_pos 3, le_rfl⟩
      · rw [append_nil]
        exact sublist_cons_self _ _
      · rw [append_nil]
        exact Perm.refl _

theorem walk_deep {reads : ℕ} (h : Rep F E m d k lo hi node cs bs) (hx : x < hi)
    (hk : reads < k) (limit : ℕ) : (walk m d x reads node limit).1 = 0 := by
  induction k generalizing lo hi node cs bs reads limit with
  | zero => omega
  | succ k ih =>
    obtain ⟨max, gen, idxs, rfl, -, hne, -, hchain⟩ := h
    cases reads with
    | zero => rfl
    | succ reads =>
      rw [walk]
      obtain ⟨pre, i, post, hbest⟩ := exists_best x hne
      obtain ⟨node, cs', bs', hread, hrep, -⟩ := hchain.find_child (fun hr => hr.bounds) hbest
      rw [hbest]
      dsimp only
      rw [hread]
      exact ih hrep (lt_next_of_best hbest hx) (by omega) _

theorem getBlockNum_mem (h : Rep F E m d k 0 hi node cs bs) (hx : x < hi)
    (hne : getBlockNum m d node x ≠ 0) : getBlockNum m d node x ∈ targets cs := by
  by_cases hk : k ≤ 4
  · rw [getBlockNum_eq h hx hk, found] at hne ⊢
    split at hne
    · rename_i b hfind
      exact mem_targets.mpr ⟨_, mem_of_find hfind, rfl⟩
    · exact absurd rfl hne
  · exact absurd (walk_deep h hx (by omega) _) hne

theorem clearEnd_blocks {newLen : ℕ} (h : Rep F E m s.blocks k 0 (2 ^ 32) node cs bs)
    (hdisjoint : ∀ b ∈ targets cs, b ∉ bs) (hb : b ∈ bs) :
    (clearEnd (m := m) s node newLen keep).blocks b = s.blocks b := by
  rw [clearEnd]
  split
  · rfl
  rename_i hne
  have hmem := getBlockNum_mem h (mod_lt _ (by decide)) fun hzero => hne (.inr hzero)
  exact writeImage_other _ _ fun heq => hdisjoint _ hmem (heq ▸ hb)

theorem clearEnd_alloc (s : Store α) (node : Node) (newLen keep : ℕ) :
    (clearEnd (m := m) s node newLen keep).alloc = s.alloc := by
  rw [clearEnd]
  split <;> rfl

/-- The inode and its tree after it was cut; `keep` is the number of blocks that stay. -/
structure Cut (A : Allocator m α) (s s' : Store α) (ino ino' : Inode) (newLen keep k k' : ℕ)
    (cs : List (Cell Kind)) (bs bs' freed : List ℕ) : Prop where
  rep : Rep True True m s'.blocks k' 0 (2 ^ 32) ino'.root (below keep cs) bs'
  depth : k' ≤ k
  root : RootOk ino'.root
  removal : Removal A (clearEnd (m := m) s ino.root newLen keep) s' cs (below keep cs) bs bs' freed
  inode : ino' = { ino with size := newLen, blocks := ino'.blocks, root := ino'.root }

/-- **`ext4_extent_truncate`** of a file that shrinks and keeps some bytes. -/
theorem truncate_spec (ok : ℕ → Bool) {ino : Inode} {newLen : ℕ} (hext : ino.extents = true)
    (hok : RootOk ino.root) (hrep : Rep True E m s.blocks k 0 (2 ^ 32) ino.root cs bs)
    (hknown : Known cs) (hnodup : (targets cs ++ bs).Nodup) (hsize : newLen < ino.size)
    (hpos : newLen ≠ 0) : Settles A ok (fun r => ∃ k' bs' freed,
        Cut A s r.1 ino r.2 newLen (keepBlocks m newLen) k k' cs bs bs' freed)
      (truncate A ok s ino newLen) := by
  obtain ⟨-, hbs, hdisjoint⟩ := nodup_append'.mp hnodup
  have hcleared : Rep True E m (clearEnd s ino.root newLen (keepBlocks m newLen)).blocks k 0
      (2 ^ 32) ino.root cs bs :=
    hrep.frame fun b hb => clearEnd_blocks hrep (fun b hb hb' => hdisjoint hb hb') hb
  have hspec := trimNode_spec (A := A) ok (keepBlocks m newLen) hcleared le_rfl hok.fits
    hknown hbs ino.blocks
  rw [truncate, if_neg (by rw [hext]; decide), if_neg (by omega), if_neg hpos]
  dsimp only
  rw [hrep.depth_eq]
  cases hr : trimNode A ok (keepBlocks m newLen) k ino.root
      (clearEnd s ino.root newLen (keepBlocks m newLen)) ino.blocks with
  | none => rw [hr] at hspec; exact hspec
  | some r =>
    obtain ⟨root, s1, n⟩ := r
    rw [hr] at hspec
    obtain ⟨bs', freed, t, rem⟩ := hspec
    dsimp only at t rem ⊢
    by_cases hempty : root.entries = 0
    · obtain ⟨hcs, rfl⟩ := t.empty hempty
      rw [if_pos hempty]
      refine ⟨0, [], freed, ?_, zero_le _, ?_, rem, ?_⟩
      · rw [hcs]
        exact ⟨4, 0, [], rfl, by decide, LeafOk.nil m _ _, by simp, rfl, rfl⟩
      · exact ⟨⟨succ_pos 3, le_rfl⟩, by simp [initInode, emptyRoot, NodeFits]⟩
      · simp [initInode, hext]
    rw [if_neg hempty]
    obtain ⟨hroot, -⟩ := t.rep hempty
    have hrootOk : RootOk root := ⟨by rw [t.max]; exact hok.max, t.fits⟩
    have hcollapse : Rep True True m s1.blocks k root.firstLogical (2 ^ 32)
        { ino with root := root, blocks := n : Inode }.root (below (keepBlocks m newLen) cs) bs' :=
      hroot
    have hcol := collapseRoot_spec (A := A) ok hcollapse hrootOk
    cases hc : collapseRoot A ok s1 { ino with root := root, blocks := n } with
    | none => rw [hc] at hcol; exact hcol
    | some r =>
      rw [hc] at hcol
      obtain ⟨k', bs'', freed', hrep', hk', hok', hsub, hperm, hfreed, hblocks, hino⟩ := hcol
      rw [← hblocks] at hrep'
      refine ⟨k', bs'', freed ++ freed', hrep', hk', hok',
        ⟨hsub.trans rem.sub, ?_, rem.freed.append hfreed, ?_⟩, ?_⟩
      · have h1 := rem.perm
        rw [perm_iff_count] at h1 hperm ⊢
        intro x
        have h1 := h1 x
        have h2 := hperm x
        simp only [count_append] at h1 h2 ⊢
        omega
      · intro b hb
        rw [hblocks]
        exact rem.frame b hb
      · exact congrArg (fun i : Inode => { i with size := newLen }) hino

end

end AvoryOS.Ext4
