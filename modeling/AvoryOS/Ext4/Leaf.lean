import AvoryOS.Ext4.Tree
import Mathlib.Data.List.TakeWhile

/-!
# Inserting into a leaf

A run that goes into a leaf is joined to its neighbours where they continue it, and else takes
an entry of its own.  Whatever happens, the entries stay in order (`Inserted.leafOk`).  The cells
are those of the leaf with the run between them as long as the neighbours it is joined to are
written ones (`Inserted.leafCells_eq`); an entry that is joined loses its unwritten mark.
-/

namespace AvoryOS.Ext4

open Option Bytes Ext3 Runs List Extent

variable {m : Mount}

theorem before_append_after (x : ℕ) (exts : List Extent) : before x exts ++ after x exts = exts :=
  takeWhile_append_dropWhile

variable {exts : List Extent} {e : Extent}

theorem block_lt_of_mem_before {x : ℕ} (h : e ∈ before x exts) : e.block < x := by
  have hlt := mem_takeWhile_imp h
  simpa using hlt

variable {lo hi : ℕ}

theorem LeafOk.le_of_mem_after {x : ℕ} (h : LeafOk m lo hi exts)
    (he : e ∈ after x exts) : x ≤ e.block := by
  induction exts with
  | nil => cases he
  | cons f exts ih =>
    rw [after, dropWhile_cons] at he
    split at he
    · exact ih h.tail he
    rename_i hf
    have hle : x ≤ f.block := by simpa using hf
    rcases mem_cons.mp he with rfl | he
    · exact hle
    · have hstop := h.head_stop he
      omega

/-- The entry on the left that the run is joined to. -/
def joinedLeft (exts : List Extent) (e : Extent) : Option Extent :=
  (before e.block exts).getLast?.filter fun l => decide (JoinsLeft l e)

/-- The entry on the right that the run is joined to. -/
def joinedRight (exts : List Extent) (e : Extent) : Option Extent :=
  (after e.block exts).head?.filter fun r =>
    match joinedLeft exts e with
    | some l => decide (Bridges l e r)
    | none => decide (JoinsRight e r)

inductive Inserted (exts : List Extent) (e : Extent) : List Extent → Prop
  | placed (hleft : joinedLeft exts e = none) (hright : joinedRight exts e = none) :
      Inserted exts e (place e exts)
  | right {r : Extent} {rest : List Extent} (hleft : joinedLeft exts e = none)
      (hright : joinedRight exts e = some r) (hafter : after e.block exts = r :: rest)
      (hjoin : JoinsRight e r) :
      Inserted exts e (before e.block exts ++ { e with len := r.masked + e.len } :: rest)
  | left {init : List Extent} {l : Extent} (hleft : joinedLeft exts e = some l)
      (hright : joinedRight exts e = none) (hbefore : before e.block exts = init ++ [l])
      (hjoin : JoinsLeft l e) :
      Inserted exts e (init ++ { l with len := l.masked + e.len } :: after e.block exts)
  | bridge {init rest : List Extent} {l r : Extent} (hleft : joinedLeft exts e = some l)
      (hright : joinedRight exts e = some r) (hbefore : before e.block exts = init ++ [l])
      (hafter : after e.block exts = r :: rest) (hjoin : JoinsLeft l e) (hbridge : Bridges l e r) :
      Inserted exts e (init ++ { l with len := l.masked + e.len + r.masked } :: rest)

section

variable {max : ℕ} {exts' : List Extent}

theorem length_before_after (e : Extent) (exts : List Extent) :
    (before e.block exts).length + (after e.block exts).length = exts.length := by
  rw [← length_append, before_append_after]

/-- What an insertion into a leaf can give. -/
def LeafInsert.Allowed (max : ℕ) (exts : List Extent) (e : Extent) : LeafInsert → Prop
  | .overlap => True
  | .full => max ≤ exts.length ∧ Inserted exts e (place e exts)
  | .done exts' => Inserted exts e exts' ∧ (exts.length ≤ max → exts'.length ≤ max)

/-- Without a join on the left: the run is joined on the right, or it takes a new entry, or the
leaf is full. -/
theorem insertRight_spec (max : ℕ) (hleft : joinedLeft exts e = none) :
    (insertRight max (before e.block exts) (after e.block exts) e).Allowed max exts e := by
  have hlen := length_before_after e exts
  have hroom : joinedRight exts e = none →
      (if max ≤ (before e.block exts).length + (after e.block exts).length then LeafInsert.full
        else .done (before e.block exts ++ e :: after e.block exts)).Allowed max exts e := by
    intro hright
    by_cases hmax : max ≤ (before e.block exts).length + (after e.block exts).length
    · rw [if_pos hmax]
      exact ⟨hlen ▸ hmax, .placed hleft hright⟩
    rw [if_neg hmax]
    refine ⟨.placed hleft hright, fun _ => ?_⟩
    rw [length_append, length_cons]
    omega
  cases hafter : after e.block exts with
  | nil =>
    have hright : joinedRight exts e = none := by rw [joinedRight, hafter]; rfl
    rw [hafter] at hroom
    exact hroom hright
  | cons r rest =>
    rw [insertRight]
    by_cases hover : r.block < (e.block + e.len) % 2 ^ 32
    · rw [if_pos hover]
      trivial
    rw [if_neg hover]
    by_cases hjoin : JoinsRight e r
    · have hright : joinedRight exts e = some r := by
        rw [joinedRight, hafter, hleft, head?_cons, filter_some, if_pos (by simpa using hjoin)]
      rw [if_pos hjoin]
      refine ⟨.right hleft hright hafter hjoin, ?_⟩
      rw [length_append, length_cons, ← hlen, hafter, length_cons]
      exact id
    · have hright : joinedRight exts e = none := by
        rw [joinedRight, hafter, hleft, head?_cons, filter_some, if_neg (by simpa using hjoin)]
      rw [if_neg hjoin]
      rw [hafter] at hroom
      exact hroom hright

theorem joinLeft_spec {init : List Extent} {l : Extent} (hleft : joinedLeft exts e = some l)
    (hbefore : before e.block exts = init ++ [l]) (hjoin : JoinsLeft l e) :
    Inserted exts e (joinLeft init l (after e.block exts) e) ∧
      (joinLeft init l (after e.block exts) e).length ≤ exts.length := by
  have hlen := length_before_after e exts
  rw [hbefore, length_append, length_singleton] at hlen
  cases hafter : after e.block exts with
  | nil =>
    have hright : joinedRight exts e = none := by rw [joinedRight, hafter]; rfl
    have hins := Inserted.left hleft hright hbefore hjoin
    rw [hafter] at hins hlen
    rw [joinLeft]
    refine ⟨hins, ?_⟩
    rw [length_append]
    exact hlen.le
  | cons r rest =>
    rw [hafter, length_cons] at hlen
    rw [joinLeft]
    by_cases hbridge : Bridges l e r
    · have hright : joinedRight exts e = some r := by
        rw [joinedRight, hafter, hleft, head?_cons, filter_some, if_pos (by simpa using hbridge)]
      rw [if_pos hbridge]
      refine ⟨.bridge hleft hright hbefore hafter hjoin hbridge, ?_⟩
      rw [length_append, length_cons]
      omega
    have hright : joinedRight exts e = none := by
      rw [joinedRight, hafter, hleft, head?_cons, filter_some, if_neg (by simpa using hbridge)]
    have hins := Inserted.left hleft hright hbefore hjoin
    rw [hafter] at hins
    rw [if_neg hbridge]
    refine ⟨hins, ?_⟩
    rw [length_append, length_cons, length_cons]
    omega

theorem insertLeafEntry_spec (max : ℕ) (exts : List Extent) (e : Extent) :
    (insertLeafEntry max exts e).Allowed max exts e := by
  rw [insertLeafEntry]
  cases hlast : (before e.block exts).getLast? with
  | none => exact insertRight_spec max (by rw [joinedLeft, hlast]; rfl)
  | some l =>
    dsimp only
    by_cases hover : e.block < (l.block + l.masked) % 2 ^ 32
    · rw [if_pos hover]
      trivial
    rw [if_neg hover]
    by_cases hjoin : JoinsLeft l e
    · have hleft : joinedLeft exts e = some l := by
        rw [joinedLeft, hlast, filter_some, if_pos (by simpa using hjoin)]
      have hbefore : before e.block exts = (before e.block exts).dropLast ++ [l] :=
        (dropLast_append_getLast? l hlast).symm
      obtain ⟨hins, hlen⟩ := joinLeft_spec hleft hbefore hjoin
      rw [if_pos hjoin]
      exact ⟨hins, hlen.trans⟩
    · have hleft : joinedLeft exts e = none := by
        rw [joinedLeft, hlast, filter_some, if_neg (by simpa using hjoin)]
      rw [if_neg hjoin]
      exact insertRight_spec max hleft

theorem insertLeafEntry_done (h : insertLeafEntry max exts e = .done exts') :
    Inserted exts e exts' ∧ (exts.length ≤ max → exts'.length ≤ max) := by
  have hspec := insertLeafEntry_spec max exts e
  rwa [h] at hspec

/-- A leaf that is found full is full, and the run goes into it by itself. -/
theorem insertLeafEntry_full (h : insertLeafEntry max exts e = .full) :
    max ≤ exts.length ∧ Inserted exts e (place e exts) := by
  have hspec := insertLeafEntry_spec max exts e
  rwa [h] at hspec

end

/-! ## The order -/

def Hole (cs : List (Cell Kind)) (e : Extent) : Prop :=
  ∀ c ∈ cs, c.1 < e.block ∨ e.block + e.count ≤ c.1

variable {f : Extent}

theorem mem_place : f ∈ place e exts ↔ f = e ∨ f ∈ exts := by
  have hsplit : f ∈ exts ↔ f ∈ before e.block exts ∨ f ∈ after e.block exts := by
    rw [← mem_append, before_append_after]
  rw [place, mem_append, mem_cons]
  tauto

theorem LeafOk.place {lo' : ℕ} (h : LeafOk m lo hi exts)
    (he : ExtentOk m e) (hlo : lo' ≤ lo) (hlo' : lo' ≤ e.block) (hhi : e.block < hi)
    (hole : Hole (leafCells exts) e) : LeafOk m lo' hi (place e exts) := by
  refine ⟨?_, ?_, ?_⟩
  · rw [Ext4.place, map_append]
    refine Ordered.insert ?_ he.count_pos ?_ ?_ ?_
    · rw [← map_append, before_append_after]
      exact h.ordered
    · intro a ha
      obtain ⟨f, hf, rfl⟩ := mem_map.mp ha
      exact block_lt_of_mem_before hf
    · intro b hb
      obtain ⟨f, hf, rfl⟩ := mem_map.mp hb
      exact h.le_of_mem_after hf
    · rw [← map_append, before_append_after]
      exact hole
  · intro f hf
    rcases mem_place.mp hf with rfl | hf
    · exact he
    · exact h.ok f hf
  intro f hf
  rcases mem_place.mp hf with rfl | hf
  · exact ⟨hlo', hhi⟩
  · have hrange := h.range f hf
    omega

theorem count_of_lt (h : e.len < 0x8000) : e.count = e.len := by
  rw [Extent.count, if_pos h.le]

/-- Two neighbours are replaced by a written extent that starts with the first one and ends
within the second one. -/
theorem LeafOk.merge {as bs : List Extent} {a b : Extent} {n : ℕ}
    (h : LeafOk m lo hi (as ++ a :: b :: bs)) (hpos : 0 < n) (hlen : n < 0x8000)
    (hstop : a.block + n ≤ b.block + b.count) (hend : a.start + n ≤ b.start + b.count) :
    LeafOk m lo hi (as ++ { a with len := n } :: bs) := by
  have ha : a ∈ as ++ a :: b :: bs := by simp
  have hb : b ∈ as ++ a :: b :: bs := by simp
  have hmem : ∀ f ∈ as ++ { a with len := n } :: bs,
      f = { a with len := n } ∨ f ∈ as ++ a :: b :: bs := by
    intro f hf
    simp only [mem_append, mem_cons] at hf ⊢
    rcases hf with hf | hf | hf
    · exact .inr (.inl hf)
    · exact .inl hf
    · exact .inr (.inr (.inr (.inr hf)))
  have hcount : Extent.count { a with len := n } = n := count_of_lt hlen
  refine ⟨?_, ?_, ?_⟩
  · have hordered := h.ordered
    rw [map_append] at hordered ⊢
    refine hordered.merge rfl ?_ ?_
    · rw [run_len, hcount]
      exact hpos
    · rw [run_stop, hcount]
      exact hstop
  · intro f hf
    rcases hmem f hf with rfl | hf
    · have hokb := h.ok b hb
      have h1 := hokb.stop
      have h2 := hokb.volume
      have h3 := hokb.address
      refine ⟨hpos, ?_, ?_, (h.ok a ha).start, ?_, ?_⟩ <;> dsimp only <;> omega
    · exact h.ok f hf
  · intro f hf
    rcases hmem f hf with rfl | hf
    · exact h.range a ha
    · exact h.range f hf

section

variable {lo' : ℕ} {exts' : List Extent}

/-- The facts about an insertion: a run of the volume goes into a hole of a leaf. -/
structure Fresh (m : Mount) (lo' hi : ℕ) (exts : List Extent) (e : Extent) : Prop where
  leaf : LeafOk m lo' hi (place e exts)
  short : e.len < 0x8000

section

variable (h : Fresh m lo' hi exts e)
include h

/-- On the left the code computes the length of the neighbour as the format does. -/
theorem Fresh.left_masked {init : List Extent} {l : Extent}
    (hbefore : before e.block exts = init ++ [l]) (hjoin : JoinsLeft l e) :
    ExtentOk m l ∧ l.masked = l.count := by
  have hmem : l ∈ before e.block exts := by rw [hbefore]; simp
  have hok : ExtentOk m l := h.leaf.ok l (mem_append_left _ hmem)
  have hlt := block_lt_of_mem_before hmem
  refine ⟨hok, ?_⟩
  have hmasked := hok.masked_eq
  split at hmasked
  · -- the longest extent has length 0 for the code, and starts before the run
    have hstop := hjoin.1
    omega
  · exact hmasked

theorem Fresh.right_ok {rest : List Extent} {r : Extent}
    (hafter : after e.block exts = r :: rest) : ExtentOk m r :=
  h.leaf.ok r (mem_append_right _ (by rw [hafter]; simp))

theorem Fresh.wrap : (e.block + e.len) % 2 ^ 32 = e.block + e.len := by
  have hok : ExtentOk m e := h.leaf.ok e (by simp [place])
  have hstop := hok.stop
  rw [count_of_lt h.short] at hstop
  exact Nat.mod_eq_of_lt hstop

/-- **The entries stay in order**, whichever way the run goes in. -/
theorem Inserted.leafOk (hins : Inserted exts e exts') : LeafOk m lo' hi exts' := by
  have hshort := h.short
  have hcount := count_of_lt hshort
  have hpos : 0 < e.len := (h.leaf.ok e (by simp [place])).pos
  have hplace := h.leaf
  rw [place] at hplace
  cases hins with
  | placed hleft hright => exact h.leaf
  | @right r rest hleft hright hafter hjoin =>
    have hle := (h.right_ok hafter).masked_le
    obtain ⟨hblock, hstart, hlen⟩ := hjoin
    rw [h.wrap] at hblock
    rw [hafter] at hplace
    exact hplace.merge (by omega) (by omega) (by omega) (by omega)
  | @left init l hleft hright hbefore hjoin =>
    obtain ⟨hok, hmasked⟩ := h.left_masked hbefore hjoin
    obtain ⟨hblock, hstart, hlen⟩ := hjoin
    rw [hok.wrap] at hblock
    rw [hbefore, append_assoc] at hplace
    exact hplace.merge (by omega) (by omega) (by omega) (by omega)
  | @bridge init rest l r hleft hright hbefore hafter hjoin hbridge =>
    obtain ⟨hok, hmasked⟩ := h.left_masked hbefore hjoin
    have hle := (h.right_ok hafter).masked_le
    obtain ⟨hblock, hstart, hlen⟩ := hjoin
    obtain ⟨hblock', hstart', hlen'⟩ := hbridge
    rw [hok.wrap] at hblock
    rw [h.wrap] at hblock'
    rw [hbefore, hafter, append_assoc] at hplace
    -- first the left neighbour and the run, then what they give and the right neighbour
    have hone := hplace.merge (n := l.masked + e.len) (by omega) (by omega) (by omega) (by omega)
    exact hone.merge (by omega) (by omega) (by dsimp only; omega) (by dsimp only; omega)

/-- An insertion replaces some neighbours, the run among them, by one written extent that starts
and ends with them. -/
theorem Inserted.shape (hins : Inserted exts e exts') :
    ∃ as xs bs j, place e exts = as ++ xs ++ bs ∧ exts' = as ++ j :: bs ∧ j.len < 0x8000 ∧
      (xs.head?.map block = some j.block) ∧
      (∃ x ∈ xs, j.block + j.count ≤ x.block + x.count) ∧
      ∀ n, joinedLeft exts e = some n ∨ joinedRight exts e = some n → n ∈ xs := by
  have hshort := h.short
  have hcount := count_of_lt hshort
  cases hins with
  | placed hleft hright =>
    refine ⟨before e.block exts, [e], after e.block exts, e, ?_, rfl, hshort, rfl,
      ⟨e, by simp, le_rfl⟩, ?_⟩
    · rw [place, append_assoc, singleton_append]
    · rw [hleft, hright]
      rintro n (hn | hn) <;> simp at hn
  | @right r rest hleft hright hafter hjoin =>
    have hle := (h.right_ok hafter).masked_le
    obtain ⟨hblock, -, hlen⟩ := hjoin
    rw [h.wrap] at hblock
    refine ⟨before e.block exts, [e, r], rest, _, ?_, rfl, by dsimp only; omega, rfl,
      ⟨r, by simp, ?_⟩, ?_⟩
    · rw [place, hafter, append_assoc]
      rfl
    · rw [count_of_lt (by dsimp only; omega)]
      dsimp only
      omega
    rw [hleft, hright]
    rintro n (hn | hn)
    · simp at hn
    · simp [some.inj hn]
  | @left init l hleft hright hbefore hjoin =>
    obtain ⟨hok, hmasked⟩ := h.left_masked hbefore hjoin
    obtain ⟨hblock, -, hlen⟩ := hjoin
    rw [hok.wrap] at hblock
    refine ⟨init, [l, e], after e.block exts, _, ?_, rfl, by dsimp only; omega, rfl,
      ⟨e, by simp, ?_⟩, ?_⟩
    · rw [place, hbefore, append_assoc, append_assoc]
      rfl
    · rw [count_of_lt (by dsimp only; omega)]
      dsimp only
      omega
    rw [hleft, hright]
    rintro n (hn | hn)
    · simp [some.inj hn]
    · simp at hn
  | @bridge init rest l r hleft hright hbefore hafter hjoin hbridge =>
    obtain ⟨hok, hmasked⟩ := h.left_masked hbefore hjoin
    have hle := (h.right_ok hafter).masked_le
    obtain ⟨hblock, -, hlen⟩ := hjoin
    obtain ⟨hblock', -, hlen'⟩ := hbridge
    rw [hok.wrap] at hblock
    rw [h.wrap] at hblock'
    refine ⟨init, [l, e, r], rest, _, ?_, rfl, by dsimp only; omega, rfl, ⟨r, by simp, ?_⟩, ?_⟩
    · rw [place, hbefore, hafter, append_assoc, append_assoc]
      rfl
    · rw [count_of_lt (by dsimp only; omega)]
      dsimp only
      omega
    · rw [hleft, hright]
      rintro n (hn | hn) <;> simp [some.inj hn]

theorem Inserted.stop_le (hins : Inserted exts e exts')
    (hf : f ∈ exts') : ∃ g ∈ place e exts, f.block + f.count ≤ g.block + g.count := by
  obtain ⟨as, xs, bs, j, hplace, rfl, -, -, ⟨x, hx, hstop⟩, -⟩ := hins.shape h
  rw [hplace]
  simp only [mem_append, mem_cons] at hf ⊢
  rcases hf with hf | rfl | hf
  · exact ⟨f, .inl (.inl hf), le_rfl⟩
  · exact ⟨x, .inl (.inr hx), hstop⟩
  · exact ⟨f, .inr hf, le_rfl⟩

end

def firstBlock (exts : List Extent) : Option ℕ := exts.head?.map block

theorem Inserted.firstBlock_eq (h : Fresh m lo' hi exts e) (hins : Inserted exts e exts') :
    firstBlock exts' = firstBlock (place e exts) := by
  obtain ⟨as, xs, bs, j, hplace, rfl, -, hhead, -⟩ := hins.shape h
  rw [hplace]
  cases as with
  | cons a as => rfl
  | nil =>
    cases xs with
    | nil => simp at hhead
    | cons x xs => simpa [firstBlock] using hhead.symm

/-! ## The cells -/

/-- The run is only joined to written neighbours. -/
def Clean (exts : List Extent) (e : Extent) : Prop :=
  ∀ n, joinedLeft exts e = some n ∨ joinedRight exts e = some n → n.len < 0x8000

theorem cells_of_join {a b : Extent} {n : ℕ} (ha : a.len < 0x8000) (hb : b.len < 0x8000)
    (hn : n < 0x8000) (hlen : n = a.len + b.len) (hkey : b.block = a.block + a.len)
    (htarget : b.start = a.start + a.len) :
    (run { a with len := n }).cells = a.run.cells ++ b.run.cells := by
  subst hlen
  have hj : len { a with len := a.len + b.len } < 0x8000 := hn
  have hrun : run { a with len := a.len + b.len } =
      ⟨a.run.first, a.run.len + b.run.len, a.run.target, a.run.tag⟩ := by
    simp [run, count_of_lt ha, count_of_lt hb, count_of_lt hj, kind_eq_written.mpr ha,
      kind_eq_written.mpr hj]
  rw [hrun]
  apply Run.cells_join
  · rw [run_first, run_stop, count_of_lt ha, hkey]
  · rw [run_target, run_target, run_len, count_of_lt ha, htarget]
  · rw [run_tag, run_tag, kind_eq_written.mpr ha, kind_eq_written.mpr hb]

theorem masked_of_lt (h : e.len < 0x8000) : e.masked = e.len := Nat.mod_eq_of_lt h

/-- **Joined to written neighbours, the run only adds its own cells.** -/
theorem Inserted.leafCells_eq (h : Fresh m lo' hi exts e) (hins : Inserted exts e exts')
    (hclean : Clean exts e) : leafCells exts' = leafCells (place e exts) := by
  have hshort := h.short
  cases hins with
  | placed hleft hright => rfl
  | @right r rest hleft hright hafter hjoin =>
    have hr := hclean r (.inr hright)
    have hmasked := masked_of_lt hr
    obtain ⟨hblock, hstart, hlen⟩ := hjoin
    rw [h.wrap] at hblock
    have hcells : Run.cells (run { e with len := r.masked + e.len }) = e.run.cells ++ r.run.cells :=
      cells_of_join hshort hr (by omega) (by omega) (by omega) (by omega)
    rw [place, hafter, leafCells_append, leafCells_append, leafCells_cons, leafCells_cons,
      leafCells_cons, hcells, append_assoc]
  | @left init l hleft hright hbefore hjoin =>
    obtain ⟨hok, hmasked⟩ := h.left_masked hbefore hjoin
    have hl := hclean l (.inl hleft)
    have hmasked := masked_of_lt hl
    obtain ⟨hblock, hstart, hlen⟩ := hjoin
    rw [hok.wrap] at hblock
    have hcells : Run.cells (run { l with len := l.masked + e.len }) = l.run.cells ++ e.run.cells :=
      cells_of_join hl hshort (by omega) (by omega) (by omega) (by omega)
    rw [place, hbefore, append_assoc, singleton_append, leafCells_append,
      leafCells_append, leafCells_cons, leafCells_cons, leafCells_cons, hcells, append_assoc]
  | @bridge init rest l r hleft hright hbefore hafter hjoin hbridge =>
    obtain ⟨hok, -⟩ := h.left_masked hbefore hjoin
    have hl := hclean l (.inl hleft)
    have hr := hclean r (.inr hright)
    have hlmasked := masked_of_lt hl
    have hrmasked := masked_of_lt hr
    obtain ⟨hblock, hstart, hlen⟩ := hjoin
    obtain ⟨hblock', hstart', hlen'⟩ := hbridge
    rw [hok.wrap] at hblock
    rw [h.wrap] at hblock'
    have hpair : Run.cells (run { l with len := l.masked + e.len }) = l.run.cells ++ e.run.cells :=
      cells_of_join hl hshort (by omega) (by omega) (by omega) (by omega)
    have hall : Run.cells (run { l with len := l.masked + e.len + r.masked }) =
        Run.cells (run { l with len := l.masked + e.len }) ++ r.run.cells :=
      cells_of_join (a := { l with len := l.masked + e.len }) (by dsimp only; omega) hr (by omega)
        (by dsimp only; omega) (by dsimp only; omega) (by dsimp only; omega)
    rw [place, hbefore, hafter, append_assoc, singleton_append, leafCells_append,
      leafCells_append, leafCells_cons, leafCells_cons, leafCells_cons, leafCells_cons, hall,
      hpair, append_assoc, append_assoc]

/-- An extent does not cover the first block of another one. -/
theorem LeafOk.not_covers {as xs bs : List Extent} (h : LeafOk m lo hi (as ++ xs ++ bs))
    {n : Extent} (hn : n ∈ xs) (hf : f ∈ as ∨ f ∈ bs) :
    n.block < f.block ∨ f.block + f.count ≤ n.block := by
  have hordered := h.ordered
  rw [map_append, map_append, ordered_append] at hordered
  obtain ⟨hfront, -, hback⟩ := hordered
  obtain ⟨-, -, hfront⟩ := ordered_append.mp hfront
  rcases hf with hf | hf
  · exact .inr (hfront f.run (mem_map_of_mem hf) n.run (mem_map_of_mem hn))
  have hstop := hback n.run (mem_append_right _ (mem_map_of_mem hn)) f.run (mem_map_of_mem hf)
  rw [run_stop, run_first] at hstop
  have hok := h.ok n (mem_append_left _ (mem_append_right _ hn))
  have hpos := hok.count_pos
  omega

/-- **A neighbour that is not a written extent loses its first cell when it is joined.** -/
theorem Inserted.not_mem (h : Fresh m lo' hi exts e) (hins : Inserted exts e exts') {n : Extent}
    (hn : joinedLeft exts e = some n ∨ joinedRight exts e = some n) (hlen : 0x8000 ≤ n.len) :
    (n.block, n.start, n.kind) ∉ leafCells exts' := by
  obtain ⟨as, xs, bs, j, hplace, rfl, hj, -, -, hjoined⟩ := hins.shape h
  have hleaf := h.leaf
  rw [hplace] at hleaf
  have hnk : n.kind ≠ .written := by
    rw [Ne, kind_eq_written]
    omega
  intro hmem
  obtain ⟨f, hf, h1, h2, h3⟩ := mem_leafCells.mp hmem
  have hkind : n.kind = f.kind := congrArg Prod.snd h3
  have hf : f ∈ as ∨ f ∈ bs := by
    simp only [mem_append, mem_cons] at hf
    rcases hf with hf | rfl | hf
    · exact .inl hf
    · rw [hkind] at hnk
      exact absurd (kind_eq_written.mpr hj) hnk
    · exact .inr hf
  have hcovers := hleaf.not_covers (hjoined n hn) hf
  omega

end

end AvoryOS.Ext4
