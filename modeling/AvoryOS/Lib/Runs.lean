import Mathlib.Data.List.Basic
import Mathlib.Data.List.Nodup
import Mathlib.Data.List.Pairwise
import Mathlib.Algebra.Order.Ring.Nat

/-!
# Maps given by runs

A run sends `len` consecutive keys, from `first` on, to consecutive targets that share a tag.
A map is kept as the list of its cells in ascending order of the keys; the cells of a list of
runs are the cells of its members one after another, so runs that continue one another can be
joined without changing the map.

## Main definitions

* `Run`, `cells`, `cellsOf` — a run, and what it says about each of its keys.
* `Ascending`, `find` — the map of a list of cells.
* `Ordered` — the runs are not empty and follow one another.
* `Run.cut` — the part of a run below a key.
-/

namespace Runs

open List

variable {κ : Type*}

/-- Keys `first`, `first + 1`, … have the targets `target`, `target + 1`, …. -/
structure Run (κ : Type*) where
  first : ℕ
  len : ℕ
  target : ℕ
  tag : κ

/-- What is known about one key. -/
abbrev Cell (κ : Type*) := ℕ × ℕ × κ

/-! ## Cells -/

/-- The cells are in ascending order of their keys. -/
def Ascending (cs : List (Cell κ)) : Prop := cs.Pairwise fun a b => a.1 < b.1

def find (cs : List (Cell κ)) (x : ℕ) : Option (ℕ × κ) := (cs.find? fun c => c.1 == x).map Prod.snd

theorem find_append (cs ds : List (Cell κ)) (x : ℕ) :
    find (cs ++ ds) x = (find cs x).or (find ds x) := by
  rw [find, find?_append, Option.map_or, find, find]

variable {cs : List (Cell κ)} {x : ℕ}

theorem find_eq_none : find cs x = none ↔ ∀ c ∈ cs, c.1 ≠ x := by
  simp [find]

theorem mem_of_find {v : ℕ × κ} (h : find cs x = some v) : (x, v) ∈ cs := by
  obtain ⟨c, hc, rfl⟩ := Option.map_eq_some_iff.mp h
  have hkey : c.1 = x := by simpa using find?_some hc
  rw [← hkey]
  exact mem_of_find?_eq_some hc

theorem find_eq_some (hasc : Ascending cs) {v : ℕ × κ} : find cs x = some v ↔ (x, v) ∈ cs := by
  refine ⟨mem_of_find, ?_⟩
  intro hmem
  induction cs with
  | nil => cases hmem
  | cons c cs ih =>
    obtain ⟨hhead, htail⟩ := pairwise_cons.mp hasc
    rw [← singleton_append, find_append]
    rcases mem_cons.mp hmem with rfl | hmem
    · simp [find]
    have hlt := hhead _ hmem
    have hnone : find [c] x = none := find_eq_none.mpr (by
      intro d hd
      rw [mem_singleton.mp hd]
      exact hlt.ne)
    rw [hnone]
    exact ih htail hmem

theorem find_congr {ds : List (Cell κ)} (hcs : Ascending cs) (hds : Ascending ds)
    (h : ∀ v, (x, v) ∈ cs ↔ (x, v) ∈ ds) : find cs x = find ds x := by
  apply Option.ext
  intro v
  rw [find_eq_some hcs, find_eq_some hds]
  exact h v

theorem ascending_append {ds : List (Cell κ)} : Ascending (cs ++ ds) ↔
    Ascending cs ∧ Ascending ds ∧ ∀ c ∈ cs, ∀ d ∈ ds, c.1 < d.1 := pairwise_append

theorem Ascending.filter (h : Ascending cs) (p : Cell κ → Bool) :
    Ascending (cs.filter p) := Pairwise.filter p h

def below (k : ℕ) (cs : List (Cell κ)) : List (Cell κ) := cs.filter fun c => decide (c.1 < k)

variable {k : ℕ} {c : Cell κ}

theorem mem_below : c ∈ below k cs ↔ c ∈ cs ∧ c.1 < k := by
  simp [below]

theorem below_append (k : ℕ) (cs ds : List (Cell κ)) :
    below k (cs ++ ds) = below k cs ++ below k ds := filter_append ..

theorem below_eq_self (h : ∀ c ∈ cs, c.1 < k) : below k cs = cs := by
  rw [below, filter_eq_self]
  intro c hc
  exact decide_eq_true (h c hc)

theorem below_eq_nil (h : ∀ c ∈ cs, k ≤ c.1) : below k cs = [] := by
  rw [below, filter_eq_nil_iff]
  intro c hc
  simpa using h c hc

/-! ## Runs -/

variable {r : Run κ}

namespace Run

def stop (r : Run κ) : ℕ := r.first + r.len

/-- What a run says about each of its keys. -/
def cells (r : Run κ) : List (Cell κ) :=
  (List.range r.len).map fun i => (r.first + i, r.target + i, r.tag)

theorem mem_cells :
    c ∈ r.cells ↔ r.first ≤ c.1 ∧ c.1 < r.stop ∧ c.2 = (r.target + (c.1 - r.first), r.tag) := by
  rw [cells, mem_map, stop]
  constructor
  · rintro ⟨i, hi, rfl⟩
    have hlt := mem_range.mp hi
    refine ⟨Nat.le_add_right _ _, by omega, ?_⟩
    rw [Nat.add_sub_cancel_left]
  · rintro ⟨h1, h2, h3⟩
    refine ⟨c.1 - r.first, mem_range.mpr (by omega), ?_⟩
    rw [Nat.add_sub_cancel' h1, ← h3]

theorem ascending_cells (r : Run κ) : Ascending r.cells := by
  rw [Ascending, cells, pairwise_map]
  refine pairwise_lt_range.imp ?_
  intro i j hij
  exact Nat.add_lt_add_left hij _

theorem cells_join {s : Run κ} (hkey : s.first = r.stop) (htarget : s.target = r.target + r.len)
    (htag : s.tag = r.tag) :
    cells ⟨r.first, r.len + s.len, r.target, r.tag⟩ = r.cells ++ s.cells := by
  have hstop : r.stop = r.first + r.len := rfl
  rw [cells, cells, cells, range_add, hkey, htarget, htag, hstop]
  simp [Nat.add_assoc]

def cut (k : ℕ) (r : Run κ) : Run κ := { r with len := min r.len (k - r.first) }

theorem cells_cut (k : ℕ) (r : Run κ) : (r.cut k).cells = below k r.cells := by
  have hsplit : r.len = min r.len (k - r.first) + (r.len - min r.len (k - r.first)) := by omega
  rw [cells, cells, hsplit, range_add, map_append, below_append, below_eq_self,
    below_eq_nil, append_nil, cut]
  · intro c hc
    obtain ⟨i, hi, rfl⟩ := mem_map.mp hc
    obtain ⟨j, hj, rfl⟩ := mem_map.mp hi
    have hlt := mem_range.mp hj
    omega
  · intro c hc
    obtain ⟨i, hi, rfl⟩ := mem_map.mp hc
    have hlt := mem_range.mp hi
    omega

end Run

/-- The cells of the runs, one run after another. -/
def cellsOf (rs : List (Run κ)) : List (Cell κ) := rs.flatMap Run.cells

theorem cellsOf_cons (r : Run κ) (rs : List (Run κ)) : cellsOf (r :: rs) = r.cells ++ cellsOf rs :=
  flatMap_cons ..

theorem cellsOf_append (rs ss : List (Run κ)) : cellsOf (rs ++ ss) = cellsOf rs ++ cellsOf ss :=
  flatMap_append ..

variable {rs : List (Run κ)}

theorem mem_cellsOf : c ∈ cellsOf rs ↔ ∃ r ∈ rs, r.first ≤ c.1 ∧ c.1 < r.stop ∧
      c.2 = (r.target + (c.1 - r.first), r.tag) := by
  simp [cellsOf, Run.mem_cells]

/-- The runs are not empty and follow one another. -/
structure Ordered (rs : List (Run κ)) : Prop where
  sorted : rs.Pairwise fun a b => a.stop ≤ b.first
  pos : ∀ r ∈ rs, 0 < r.len

theorem Ordered.nil : Ordered ([] : List (Run κ)) := ⟨Pairwise.nil, by simp⟩

theorem ordered_append {ss : List (Run κ)} : Ordered (rs ++ ss) ↔
    Ordered rs ∧ Ordered ss ∧ ∀ a ∈ rs, ∀ b ∈ ss, a.stop ≤ b.first := by
  constructor
  · intro h
    obtain ⟨hrs, hss, hcross⟩ := pairwise_append.mp h.sorted
    exact ⟨⟨hrs, fun r hr => h.pos r (mem_append_left _ hr)⟩,
      ⟨hss, fun r hr => h.pos r (mem_append_right _ hr)⟩, hcross⟩
  · rintro ⟨hrs, hss, hcross⟩
    refine ⟨pairwise_append.mpr ⟨hrs.sorted, hss.sorted, hcross⟩, ?_⟩
    intro r hr
    exact (mem_append.mp hr).elim (hrs.pos r) (hss.pos r)

theorem ordered_cons : Ordered (r :: rs) ↔ 0 < r.len ∧ Ordered rs ∧ ∀ b ∈ rs, r.stop ≤ b.first := by
  rw [← singleton_append, ordered_append]
  constructor
  · rintro ⟨hr, hrs, hcross⟩
    exact ⟨hr.pos r (mem_singleton_self r), hrs, hcross r (mem_singleton_self r)⟩
  rintro ⟨hpos, hrs, hcross⟩
  refine ⟨⟨pairwise_singleton _ _, by simpa using hpos⟩, hrs, ?_⟩
  intro a ha
  rw [mem_singleton.mp ha]
  exact hcross

theorem Ordered.ascending (h : Ordered rs) : Ascending (cellsOf rs) := by
  induction rs with
  | nil => exact Pairwise.nil
  | cons r rs ih =>
    obtain ⟨-, hrs, hcross⟩ := ordered_cons.mp h
    rw [cellsOf_cons, ascending_append]
    refine ⟨r.ascending_cells, ih hrs, ?_⟩
    intro c hc d hd
    obtain ⟨s, hs, hfirst, -⟩ := mem_cellsOf.mp hd
    have hc := (Run.mem_cells.mp hc).2.1
    have hle := hcross s hs
    omega

/-- A run that covers none of their keys goes between the runs that start before it and those
that start after it. -/
theorem Ordered.insert {as bs : List (Run κ)} (h : Ordered (as ++ bs)) (hr : 0 < r.len)
    (has : ∀ a ∈ as, a.first < r.first) (hbs : ∀ b ∈ bs, r.first ≤ b.first)
    (hole : ∀ c ∈ cellsOf (as ++ bs), c.1 < r.first ∨ r.stop ≤ c.1) : Ordered (as ++ r :: bs) := by
  have hstop : r.stop = r.first + r.len := rfl
  have hleft : ∀ a ∈ as, a.stop ≤ r.first := by
    intro a ha
    -- otherwise the key `r.first` belongs to `a`
    by_contra hnot
    have hlt := has a ha
    have hmem : (r.first, a.target + (r.first - a.first), a.tag) ∈ cellsOf (as ++ bs) :=
      mem_cellsOf.mpr ⟨a, mem_append_left _ ha, by omega, by omega, rfl⟩
    have hfree := hole _ hmem
    omega
  have hright : ∀ b ∈ bs, r.stop ≤ b.first := by
    intro b hb
    have hle := hbs b hb
    have hpos := h.pos b (mem_append_right _ hb)
    have hb' : b.stop = b.first + b.len := rfl
    have hmem : (b.first, b.target + (b.first - b.first), b.tag) ∈ cellsOf (as ++ bs) :=
      mem_cellsOf.mpr ⟨b, mem_append_right _ hb, le_rfl, by omega, rfl⟩
    have hfree := hole _ hmem
    omega
  obtain ⟨ha, hb, hcross⟩ := ordered_append.mp h
  refine ordered_append.mpr ⟨ha, ordered_cons.mpr ⟨hr, hb, hright⟩, ?_⟩
  intro a ha b hb
  rcases mem_cons.mp hb with rfl | hb
  · exact hleft a ha
  · exact hcross a ha b hb

/-- Two neighbours are replaced by a run that starts with the first one and ends within the
second one. -/
theorem Ordered.merge {as bs : List (Run κ)} {a b j : Run κ} (h : Ordered (as ++ a :: b :: bs))
    (hfirst : j.first = a.first) (hpos : 0 < j.len) (hstop : j.stop ≤ b.stop) :
    Ordered (as ++ j :: bs) := by
  obtain ⟨has, hrest, hcross⟩ := ordered_append.mp h
  obtain ⟨-, hrest, -⟩ := ordered_cons.mp hrest
  obtain ⟨-, hbs, hb⟩ := ordered_cons.mp hrest
  refine ordered_append.mpr ⟨has, ordered_cons.mpr ⟨hpos, hbs, ?_⟩, ?_⟩
  · intro c hc
    exact hstop.trans (hb c hc)
  intro c hc x hx
  rcases mem_cons.mp hx with rfl | hx
  · rw [hfirst]
    exact hcross c hc a mem_cons_self
  · exact hcross c hc x (mem_cons_of_mem _ (mem_cons_of_mem _ hx))

end Runs
