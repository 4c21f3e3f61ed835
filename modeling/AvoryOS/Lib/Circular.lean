import Mathlib.Data.List.Nodup
import Mathlib.Logic.Function.Basic

/-!
# Circular doubly linked lists

Nodes are linked through two pointers of their own, and a head closes the circle.  Memory is a
function from pointers to the two pointers stored there; adding and removing a node are the
usual four and two stores.

`Loop m h xs` says that the circle through `h` visits exactly `xs`, in both directions.  The
operations on memory become operations on the list, and every node outside the circle is left
alone.

## Main definitions

* `ListHead`, `addTail`, `del` — a node, and the stores of the operations.
* `Seg`, `Loop` — a stretch of the circle, and the circle.
-/

namespace Circular

open Function List

structure ListHead (P : Type*) where
  next : P
  prev : P
deriving DecidableEq

variable {P : Type*} {m m' : P → ListHead P} {a b h x y : P} {xs ys : List P}

/-! ## Stretches -/

/-- `b` follows `a` and points back to it. -/
def Linked (m : P → ListHead P) (a b : P) : Prop := (m a).next = b ∧ (m b).prev = a

/-- From `a` over `xs` to `b`. -/
def Seg (m : P → ListHead P) : P → List P → P → Prop
  | a, [], b => Linked m a b
  | a, x :: xs, b => Linked m a x ∧ Seg m x xs b

theorem seg_append : Seg m a (xs ++ y :: ys) b ↔ Seg m a xs y ∧ Seg m y ys b := by
  induction xs generalizing a with
  | nil => exact Iff.rfl
  | cons x xs ih =>
    rw [cons_append, Seg, Seg, ih, and_assoc]

section

variable (hs : Seg m a xs b)
include hs

/-- A stretch reads `next` before its end and `prev` behind its start. -/
theorem Seg.congr (hnext : ∀ p ∈ a :: xs, (m' p).next = (m p).next)
    (hprev : ∀ p ∈ b :: xs, (m' p).prev = (m p).prev) : Seg m' a xs b := by
  induction xs generalizing a with
  | nil =>
    exact ⟨(hnext a mem_cons_self).trans hs.1, (hprev b mem_cons_self).trans hs.2⟩
  | cons x xs ih =>
    refine ⟨⟨(hnext a mem_cons_self).trans hs.1.1, ?_⟩, ih hs.2 ?_ ?_⟩
    · exact (hprev x (mem_cons_of_mem _ mem_cons_self)).trans hs.1.2
    · exact fun p hp => hnext p (mem_cons_of_mem _ hp)
    intro p hp
    refine hprev p ?_
    rcases mem_cons.mp hp with rfl | hp
    · exact mem_cons_self
    · exact mem_cons_of_mem _ (mem_cons_of_mem _ hp)

theorem Seg.next_mem : (m a).next ∈ xs ++ [b] := by
  cases xs with
  | nil => exact mem_singleton.mpr hs.1
  | cons x xs => exact hs.1.1 ▸ mem_cons_self

theorem Seg.prev_next : (m (m a).next).prev = a := by
  cases xs with
  | nil => rw [hs.1]; exact hs.2
  | cons x xs => rw [hs.1.1]; exact hs.1.2

theorem Seg.prev_mem : (m b).prev ∈ a :: xs := by
  induction xs generalizing a with
  | nil => exact mem_singleton.mpr hs.2
  | cons x xs ih => exact mem_cons_of_mem _ (ih hs.2)

theorem Seg.next_prev : (m (m b).prev).next = b := by
  induction xs generalizing a with
  | nil => rw [hs.2]; exact hs.1
  | cons x xs ih => exact ih hs.2

end

/-! ## Circles -/

/-- The circle through `h` visits exactly `xs`. -/
structure Loop (m : P → ListHead P) (h : P) (xs : List P) : Prop where
  seg : Seg m h xs h
  nodup : (h :: xs).Nodup

theorem Loop.congr (hr : Loop m h xs) (hm : ∀ p ∈ h :: xs, m' p = m p) : Loop m' h xs :=
  ⟨hr.seg.congr (fun p hp => by rw [hm p hp]) (fun p hp => by rw [hm p hp]), hr.nodup⟩

theorem Loop.next_eq_head_iff (hr : Loop m h xs) : (m h).next = h ↔ xs = [] := by
  cases xs with
  | nil => exact iff_of_true hr.seg.1 rfl
  | cons x xs =>
    refine iff_of_false ?_ (cons_ne_nil _ _)
    rw [hr.seg.1.1]
    rintro rfl
    exact (nodup_cons.mp hr.nodup).1 mem_cons_self

theorem Loop.next_head (hr : Loop m h (x :: xs)) : (m h).next = x := hr.seg.1.1

/-- Both neighbours of a node are on the circle and point back to it. -/
theorem Loop.neighbours (hr : Loop m h xs) (hx : x ∈ xs) :
    ((m x).next ∈ h :: xs ∧ (m (m x).next).prev = x) ∧
      (m x).prev ∈ h :: xs ∧ (m (m x).prev).next = x := by
  obtain ⟨as, bs, rfl⟩ := append_of_mem hx
  obtain ⟨hs, ht⟩ := seg_append.mp hr.seg
  refine ⟨⟨?_, ht.prev_next⟩, ?_, hs.next_prev⟩
  · have := ht.next_mem
    simp only [mem_append, mem_cons] at this ⊢
    tauto
  · have := hs.prev_mem
    simp only [mem_append, mem_cons] at this ⊢
    tauto

theorem Loop.prev_head_mem (hr : Loop m h xs) : (m h).prev ∈ h :: xs := hr.seg.prev_mem

variable [DecidableEq P]

/-! ## Stores -/

def setNext (m : P → ListHead P) (p q : P) : P → ListHead P :=
  update m p { m p with next := q }

def setPrev (m : P → ListHead P) (p q : P) : P → ListHead P :=
  update m p { m p with prev := q }

def init (m : P → ListHead P) (h : P) : P → ListHead P := update m h ⟨h, h⟩

/-- `x` between the neighbours `p` and `n`. -/
def insert (m : P → ListHead P) (x p n : P) : P → ListHead P :=
  setNext (setPrev (setNext (setPrev m n x) x n) x p) p x

def addTail (m : P → ListHead P) (x h : P) : P → ListHead P := insert m x (m h).prev h

/-- The neighbours `p` and `n` of a node point past it. -/
def unlink (m : P → ListHead P) (p n : P) : P → ListHead P := setNext (setPrev m n p) p n

/-- `x` leaves the circle; its own pointers become `nil`. -/
def del (m : P → ListHead P) (x nil : P) : P → ListHead P :=
  update (unlink m (m x).prev (m x).next) x ⟨nil, nil⟩

theorem setNext_next (m : P → ListHead P) (p q y : P) :
    (setNext m p q y).next = if y = p then q else (m y).next := by
  by_cases hy : y = p
  · simp [setNext, hy]
  · simp [setNext, hy]

@[simp] theorem setNext_prev (m : P → ListHead P) (p q y : P) :
    (setNext m p q y).prev = (m y).prev := by
  by_cases hy : y = p
  · simp [setNext, hy]
  · simp [setNext, hy]

@[simp] theorem setPrev_next (m : P → ListHead P) (p q y : P) :
    (setPrev m p q y).next = (m y).next := by
  by_cases hy : y = p
  · simp [setPrev, hy]
  · simp [setPrev, hy]

theorem setPrev_prev (m : P → ListHead P) (p q y : P) :
    (setPrev m p q y).prev = if y = p then q else (m y).prev := by
  by_cases hy : y = p
  · simp [setPrev, hy]
  · simp [setPrev, hy]

theorem insert_next (m : P → ListHead P) (x p n y : P) :
    (insert m x p n y).next = if y = p then x else if y = x then n else (m y).next := by
  simp [insert, setNext_next]

theorem insert_prev (m : P → ListHead P) (x p n y : P) :
    (insert m x p n y).prev = if y = x then p else if y = n then x else (m y).prev := by
  simp [insert, setPrev_prev]

theorem del_next (m : P → ListHead P) (nil : P) (hy : y ≠ x) :
    (del m x nil y).next = if y = (m x).prev then (m x).next else (m y).next := by
  rw [del, update_of_ne hy, unlink, setNext_next, setPrev_next]

theorem del_prev (m : P → ListHead P) (nil : P) (hy : y ≠ x) :
    (del m x nil y).prev = if y = (m x).next then (m x).prev else (m y).prev := by
  rw [del, update_of_ne hy, unlink, setNext_prev, setPrev_prev]

/-! ## Operations -/

theorem Seg.del {nil : P} (hs : Seg m a xs x) (ht : Seg m x ys b)
    (hnd : (a :: (xs ++ x :: ys)).Nodup) (hb : b ∉ xs ++ x :: ys) :
    Seg (del m x nil) a (xs ++ ys) b := by
  have hbx : b ≠ x := fun e => hb (e ▸ mem_append_right _ mem_cons_self)
  induction xs generalizing a with
  | nil =>
    -- the stretch behind the node now starts at `a`
    have hax : a ≠ x := fun e => (nodup_cons.mp hnd).1 (e ▸ mem_cons_self)
    have hprev : (m x).prev = a := hs.2
    cases ys with
    | nil =>
      refine ⟨?_, ?_⟩
      · rw [del_next m nil hax, hprev, if_pos rfl]; exact ht.1
      · rw [del_prev m nil hbx, if_pos ht.1.symm, hprev]
    | cons n ys =>
      obtain ⟨⟨hn, hnx⟩, hrest⟩ := ht
      simp only [nil_append, nodup_cons, mem_cons, not_or] at hnd hb
      obtain ⟨⟨-, han, hays⟩, ⟨hxn, hxys⟩, hnys, -⟩ := hnd
      refine ⟨⟨?_, ?_⟩, hrest.congr ?_ ?_⟩
      · rw [del_next m nil hax, hprev, if_pos rfl, hn]
      · rw [del_prev m nil (Ne.symm hxn), hn, if_pos rfl, hprev]
      · intro p hp
        have hpx : p ≠ x := by rintro rfl; exact absurd hp (by simp [hxn, hxys])
        have hpa : p ≠ a := by rintro rfl; exact absurd hp (by simp [han, hays])
        rw [del_next m nil hpx, hprev, if_neg hpa]
      · intro p hp
        have hpx : p ≠ x := by rintro rfl; exact absurd hp (by simp [hbx.symm, hxys])
        have hpn : p ≠ n := by rintro rfl; exact absurd hp (by simp [Ne.symm hb.2.1, hnys])
        rw [del_prev m nil hpx, hn, if_neg hpn]
  | cons y xs ih =>
    have hmem := nodup_cons.mp hnd
    refine ⟨⟨?_, ?_⟩, ih hs.2 hmem.2 fun hin => hb (mem_cons_of_mem _ hin)⟩
    · -- the predecessor of the node comes later
      have hax : a ≠ x := fun e => hmem.1 (e ▸ by simp)
      have hap : a ≠ (m x).prev := fun e => hmem.1 (by
        rw [e]
        exact mem_append_left (x :: ys) (Seg.prev_mem hs.2))
      rw [del_next m nil hax, if_neg hap]
      exact hs.1.1
    have hyrest := (nodup_cons.mp hmem.2).1
    have hyx : y ≠ x := fun e => hyrest (e ▸ by simp)
    have hyn : y ≠ (m x).next := by
      intro e
      rcases mem_append.mp (Seg.next_mem ht) with hin | hin
      · exact hyrest (by rw [e]; exact mem_append_right _ (mem_cons_of_mem _ hin))
      · exact hb (by rw [← mem_singleton.mp hin, ← e]; exact mem_cons_self)
    rw [del_prev m nil hyx, if_neg hyn]
    exact hs.1.2

theorem Loop.addTail_append (hr : Loop m h xs) (hx : x ∉ h :: xs) :
    Loop (addTail m x h) h (xs ++ [x]) := by
  obtain ⟨hxh, hxs⟩ := not_or.mp (mt mem_cons.mpr hx)
  have hnd := nodup_cons.mp hr.nodup
  refine ⟨?_, ?_⟩
  swap
  · rw [← cons_append, nodup_append]
    refine ⟨hr.nodup, nodup_singleton x, fun p hp q hq => ?_⟩
    rintro rfl
    exact hx (mem_singleton.mp hq ▸ hp)
  rw [seg_append, addTail]
  have hlast : Linked (insert m x (m h).prev h) x h := by
    refine ⟨?_, ?_⟩
    · rw [insert_next, if_neg, if_pos rfl]
      rintro e
      exact hx (e ▸ hr.prev_head_mem)
    · rw [insert_prev, if_neg (Ne.symm hxh), if_pos rfl]
  refine ⟨?_, hlast⟩
  rcases eq_nil_or_concat xs with rfl | ⟨ys, l, rfl⟩
  · refine ⟨?_, ?_⟩
    · rw [insert_next, if_pos hr.seg.2.symm]
    · rw [insert_prev, if_pos rfl, hr.seg.2]
  -- the old last node is the only other one that changes
  simp only [concat_eq_append, mem_append, mem_singleton, not_or] at hxs hnd
  obtain ⟨hs, hl⟩ := seg_append.mp (show Seg m h (ys ++ l :: []) h by
    simpa only [concat_eq_append] using hr.seg)
  have hly : l ∉ ys := by
    have := hnd.2
    rw [nodup_append] at this
    exact fun hin => this.2.2 l hin l mem_cons_self rfl
  rw [concat_eq_append, seg_append, show (m h).prev = l from hl.2]
  refine ⟨hs.congr ?_ ?_, ?_, ?_⟩
  · intro p hp
    have hpl : p ≠ l := by
      rintro rfl
      rcases mem_cons.mp hp with e | hp
      · exact hnd.1.2 e.symm
      · exact hly hp
    have hpx : p ≠ x := by
      rintro rfl
      rcases mem_cons.mp hp with e | hp
      · exact hxh e
      · exact hxs.1 hp
    rw [insert_next, if_neg hpl, if_neg hpx]
  · intro p hp
    have hpx : p ≠ x := by
      rintro rfl
      rcases mem_cons.mp hp with e | hp
      · exact hxs.2 e
      · exact hxs.1 hp
    have hph : p ≠ h := by
      rintro rfl
      rcases mem_cons.mp hp with e | hp
      · exact hnd.1.2 e
      · exact hnd.1.1 hp
    rw [insert_prev, if_neg hpx, if_neg hph]
  · rw [insert_next, if_pos rfl]
  · rw [insert_prev, if_pos rfl]

theorem Loop.addTail_of_notMem (hr : Loop m h xs) (hy : y ∉ x :: h :: xs) :
    addTail m x h y = m y := by
  have hyx : y ≠ x := fun e => hy (e ▸ mem_cons_self)
  have hyh : y ≠ h := fun e => hy (e ▸ mem_cons_of_mem _ mem_cons_self)
  have hyp : y ≠ (m h).prev := fun e => hy (mem_cons_of_mem _ (e ▸ hr.prev_head_mem))
  have hnext := insert_next m x (m h).prev h y
  have hprev := insert_prev m x (m h).prev h y
  rw [if_neg hyp, if_neg hyx] at hnext
  rw [if_neg hyx, if_neg hyh] at hprev
  exact congrArg₂ ListHead.mk hnext hprev

theorem Loop.del_erase {nil : P} (hr : Loop m h xs) (hx : x ∈ xs) :
    Loop (del m x nil) h (xs.erase x) := by
  obtain ⟨as, bs, rfl⟩ := append_of_mem hx
  obtain ⟨hs, ht⟩ := seg_append.mp hr.seg
  have hnd := nodup_cons.mp hr.nodup
  have hxas : x ∉ as := by
    have := hnd.2
    rw [nodup_append] at this
    exact fun hin => this.2.2 x hin x mem_cons_self rfl
  rw [erase_append_right _ hxas, erase_cons_head]
  refine ⟨hs.del ht hr.nodup hnd.1, ?_⟩
  exact hr.nodup.sublist (Sublist.cons_cons h ((Sublist.refl as).append (sublist_cons_self x bs)))

theorem Loop.del_of_notMem {nil : P} (hr : Loop m h xs) (hx : x ∈ xs) (hy : y ∉ h :: xs) :
    del m x nil y = m y := by
  obtain ⟨⟨hn, -⟩, hp, -⟩ := hr.neighbours hx
  have hyx : y ≠ x := fun e => hy (e ▸ mem_cons_of_mem _ hx)
  have hnext := del_next m nil hyx
  have hprev := del_prev m nil hyx
  rw [if_neg fun e : y = (m x).prev => hy (e ▸ hp)] at hnext
  rw [if_neg fun e : y = (m x).next => hy (e ▸ hn)] at hprev
  exact congrArg₂ ListHead.mk hnext hprev

end Circular
