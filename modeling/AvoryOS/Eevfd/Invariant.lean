import AvoryOS.Eevfd.Pick
import Mathlib.Data.Finset.Card

/-!
# What the calls do to the queues

Every queue is a tree in order, with its least deadlines, its first entity and its counters.  An
entity goes into the queue of its processor and out of it, and all queues stay so; the other calls
do not touch the places of the entities that wait.
-/

namespace AvoryOS.Eevfd

open LinkedTree RedBlack Rb Function List Option Sched

variable {s s' : Sched} {r r' x y n : ℕ} {T : RedBlack.Tree} {F : ℕ → RedBlack.Tree}
  {E : Finset ℕ} {q : Rq} {e : Entity}

/-! ## One queue -/

/-- The queue is in its tree, in order, with its least deadlines, its first entity and its
counters. -/
structure Kept (s : Sched) (r : ℕ) (T : RedBlack.Tree) : Prop where
  good : Good (updateMinDeadline s.se) (s.heap r) [] T
  valid : Valid T
  sorted : Sorted s.se (inorder T)
  leftmost : (s.rq r).leftmost = (inorder T).headD 0
  running : (s.rq r).nrRunning = (inorder T).length % 2 ^ 32
  weight : (s.rq r).totalWeight = ((inorder T).map fun x => (s.se x).weight).sum % 2 ^ 64

/-- The entity has the same place and weight in a queue. -/
def Same (e e' : Entity) : Prop :=
  e'.vruntime = e.vruntime ∧ e'.deadline = e.deadline ∧ e'.weight = e.weight

theorem same_update {se : ℕ → Entity} (h : Same (se x) e) (y : ℕ) : Same (se y) (update se x e y) :=
  (forall_update_iff se fun y e => Same (se y) e).mpr ⟨h, fun _ _ => ⟨rfl, rfl, rfl⟩⟩ y

theorem onRq_setSe (h : e.onRq = (s.se x).onRq) (y : ℕ) :
    ((s.setSe x e).se y).onRq = (s.se y).onRq :=
  (forall_update_iff s.se fun y e => e.onRq = (s.se y).onRq).mpr ⟨h, fun _ _ => rfl⟩ y

/-- What does not change in one queue does not change in any. -/
theorem field_setRq {γ : Type} (g : Rq → γ) (h : g q = g (s.rq r)) (r' : ℕ) :
    g ((s.setRq r q).rq r') = g (s.rq r') :=
  (forall_update_iff s.rq fun r' q => g q = g (s.rq r')).mpr ⟨h, fun _ _ => rfl⟩ r'

theorem ne_of_onRq (hx : (s.se x).onRq = false) (hy : (s.se y).onRq = true) : y ≠ x := fun e => by
  rw [e, hx] at hy
  cases hy

theorem Kept.congr (hk : Kept s r T) (hroot : (s'.rq r).root = (s.rq r).root)
    (hleft : (s'.rq r).leftmost = (s.rq r).leftmost)
    (hrun : (s'.rq r).nrRunning = (s.rq r).nrRunning)
    (hweight : (s'.rq r).totalWeight = (s.rq r).totalWeight)
    (hnode : ∀ z ∈ inorder T, s'.node z = s.node z)
    (hmin : ∀ z ∈ inorder T, s'.minDeadline z = s.minDeadline z)
    (hse : ∀ z ∈ inorder T, Same (s.se z) (s'.se z)) : Kept s' r T := by
  refine ⟨?_, hk.valid, hk.sorted.congr (fun z hz => (hse z hz).1) fun z hz => (hse z hz).2.1,
    hleft.trans hk.leftmost, hrun.trans hk.running, ?_⟩
  · refine Good.congr hk.good hroot hnode hmin fun z hz => ?_
    rw [(hse z hz).2.1]
  · rw [hweight, hk.weight, map_congr_left fun z hz => (hse z hz).2.2]

/-! ## All queues -/

/-- All queues are kept, and the flags of the entities say where they are. -/
structure Core (E : Finset ℕ) (s : Sched) (F : ℕ → RedBlack.Tree) : Prop where
  queue : ∀ r, Kept s r (F r)
  mem : ∀ r x, x ∈ inorder (F r) ↔ (s.se x).onRq = true ∧ s.cpu x = r
  entity : ∀ x, (s.se x).onRq = true →
    x ∈ E ∧ ptrSane x = true ∧ s.cpu x ≠ 0 ∧ ptrSane (s.cpu x) = true
  unlinked : ∀ x ∈ E, (s.se x).onRq = false → s.node x = unlinked
  weights : ∀ x, (s.se x).weight < 2 ^ 32

theorem Core.length_le (hc : Core E s F) (r : ℕ) : (inorder (F r)).length ≤ E.card := by
  have hnodup := (hc.queue r).good.links.nodup
  rw [addrs, append_nil] at hnodup
  rw [← toFinset_card_of_nodup hnodup]
  refine Finset.card_le_card fun x hx => ?_
  exact (hc.entity x ((hc.mem r x).mp (mem_toFinset.mp hx)).1).1

theorem updateMinVruntime_eq (r : ℕ) (s : Sched) :
    ∃ v m, updateMinVruntime r s = s.setRq r { s.rq r with vtime := v, minVruntime := m } := by
  by_cases h0 : (s.rq r).curr = 0 ∧ (s.rq r).leftmost = 0
  · refine ⟨(s.rq r).vtime, (s.rq r).minVruntime, (if_pos h0).trans ?_⟩
    rw [setRq, update_eq_self]
  have hfloor : ∀ minimum, ∃ v m,
      (let q := if (s.rq r).minVruntime < minimum then
          { s.rq r with minVruntime := minimum } else s.rq r
        if q.vtime < q.minVruntime then { q with vtime := q.minVruntime } else q) =
        { s.rq r with vtime := v, minVruntime := m } := by
    intro minimum
    dsimp only
    split_ifs <;> exact ⟨_, _, rfl⟩
  obtain ⟨v, m, h⟩ := hfloor _
  exact ⟨v, m, (if_neg h0).trans (congrArg (s.setRq r) h)⟩

theorem Core.setCpu (hc : Core E s F) (hx : (s.se x).onRq = false) (r : ℕ) :
    Core E { s with cpu := update s.cpu x r } F := by
  refine ⟨fun r' => ?_, fun r' y => ?_, fun y hy => ?_, hc.unlinked, hc.weights⟩
  · exact (hc.queue r').congr rfl rfl rfl rfl (fun _ _ => rfl) (fun _ _ => rfl)
      fun _ _ => ⟨rfl, rfl, rfl⟩
  · rw [hc.mem]
    refine and_congr_right fun hy => ?_
    dsimp only
    rw [update_of_ne (ne_of_onRq hx hy)]
  · dsimp only
    rw [update_of_ne (ne_of_onRq hx hy)]
    exact hc.entity y hy

/-- One entity goes into the queue of its processor, or out of it. -/
theorem Core.replace (hc : Core E s F) (hE : 0 ∉ E) (hcpu : s.cpu x = r) (hcpu' : s'.cpu = s.cpu)
    (hk : Kept s' r T) (hrq : ∀ r', r' ≠ r → s'.rq r' = s.rq r')
    (hse : ∀ y, y ≠ x → s'.se y = s.se y) (hweight : (s'.se x).weight = (s.se x).weight)
    (hframe : ∀ z, z ≠ 0 → z ≠ x → z ∉ inorder T →
      s'.node z = s.node z ∧ s'.minDeadline z = s.minDeadline z)
    (hmem : ∀ y, y ≠ x → (y ∈ inorder T ↔ y ∈ inorder (F r)))
    (hx : x ∈ inorder T ↔ (s'.se x).onRq = true) (hon : (s'.se x).onRq = true →
      x ∈ E ∧ ptrSane x = true ∧ s.cpu x ≠ 0 ∧ ptrSane (s.cpu x) = true)
    (hoff : (s'.se x).onRq = false → s'.node x = Eevfd.unlinked) : Core E s' (update F r T) := by
  -- an entity of another queue is neither `x` nor in the new tree
  have hother : ∀ r', r' ≠ r → ∀ z ∈ inorder (F r'), z ≠ x ∧ z ∉ inorder T := by
    intro r' hr' z hz
    have hcz : s.cpu z = r' := ((hc.mem r' z).mp hz).2
    have hzx : z ≠ x := fun e => hr' (by rw [← hcz, e, hcpu])
    refine ⟨hzx, fun hzT => hr' ?_⟩
    rw [← hcz, ((hc.mem r z).mp ((hmem z hzx).mp hzT)).2]
  have h0 : ∀ r', ∀ z ∈ inorder (F r'), z ≠ 0 := fun r' z hz e =>
    (hc.queue r').good.links.nonzero (mem_append_left _ (e ▸ hz))
  refine ⟨fun r' => ?_, fun r' y => ?_, fun y hy => ?_, fun y hyE hy => ?_, fun y => ?_⟩
  · by_cases hr' : r' = r
    · subst hr'
      rw [update_self]
      exact hk
    rw [update_of_ne hr']
    have hf : ∀ z ∈ inorder (F r'), s'.node z = s.node z ∧ s'.minDeadline z = s.minDeadline z :=
      fun z hz => hframe z (h0 r' z hz) (hother r' hr' z hz).1 (hother r' hr' z hz).2
    refine (hc.queue r').congr (by rw [hrq r' hr']) (by rw [hrq r' hr']) (by rw [hrq r' hr'])
      (by rw [hrq r' hr']) (fun z hz => (hf z hz).1) (fun z hz => (hf z hz).2) fun z hz => ?_
    rw [hse z (hother r' hr' z hz).1]
    exact ⟨rfl, rfl, rfl⟩
  · rw [hcpu']
    by_cases hyx : y = x
    · subst hyx
      by_cases hr' : r' = r
      · subst hr'
        rw [update_self, hx]
        exact ⟨fun h => ⟨h, hcpu⟩, fun h => h.1⟩
      · rw [update_of_ne hr']
        exact ⟨fun h => absurd rfl (hother r' hr' y h).1, fun h => absurd (h.2.symm.trans hcpu) hr'⟩
    · rw [hse y hyx]
      by_cases hr' : r' = r
      · subst hr'
        rw [update_self, hmem y hyx, hc.mem]
      · rw [update_of_ne hr', hc.mem]
  · rw [hcpu']
    by_cases hyx : y = x
    · subst hyx
      exact hon hy
    · rw [hse y hyx] at hy
      exact hc.entity y hy
  · by_cases hyx : y = x
    · subst hyx
      exact hoff hy
    rw [hse y hyx] at hy
    have hyT : y ∉ inorder T := fun h => by
      rw [hmem y hyx, hc.mem, hy] at h
      cases h.1
    rw [(hframe y (fun e => hE (e ▸ hyE)) hyx hyT).1]
    exact hc.unlinked y hyE hy
  · by_cases hyx : y = x
    · subst hyx
      rw [hweight]
      exact hc.weights y
    · rw [hse y hyx]
      exact hc.weights y

/-! ## Into the queue -/

theorem enqueueEntity_eq {h : Heap ℕ} {parent : ℕ} {side : Side} {lm : Bool}
    (hguard : ¬(r = 0 ∨ x = 0 ∨ !ptrSane r ∨ !ptrSane x ∨ (s.se x).onRq))
    (hnode : s.node x = unlinked)
    (hrun : Repeat.run (descendStep (s.heap r) s.se x) n ((s.rq r).root, 0, .left, true) =
      some (parent, side, lm))
    (hins : rbInsertAugmented n (updateMinDeadline s.se) x (rbLinkNode x parent side
      ⟨s.node, (s.rq r).root, update s.minDeadline x (s.se x).deadline⟩) = some h) :
    ∃ v m, enqueueEntity n r x s = some
      { s with
        node := h.node
        minDeadline := h.aug
        se := update s.se x { s.se x with onRq := true }
        rq := update s.rq r
          { s.rq r with
            root := h.root
            leftmost := if lm then x else (s.rq r).leftmost
            vtime := v
            minVruntime := m
            totalWeight := ((s.rq r).totalWeight + (s.se x).weight) % 2 ^ 64
            nrRunning := ((s.rq r).nrRunning + 1) % 2 ^ 32 } } := by
  choose v m hfloor using updateMinVruntime_eq r
  rw [enqueueEntity, if_neg hguard, if_neg (fun h => h hnode), hrun]
  cases lm <;>
    simp only [heap, hins, bind_eq_bind, bind_some, setHeap, setRq, setSe, hfloor, update_self,
      update_idem, if_true, Bool.false_eq_true, if_false] <;>
    exact ⟨_, _, rfl⟩

theorem updateMinDeadline_congr {se se' : ℕ → Entity}
    (h : ∀ x, (se' x).deadline = (se x).deadline) :
    updateMinDeadline se' = updateMinDeadline se := by
  simp [updateMinDeadline, h]

/-- **An entity is put into the queue of its processor.** -/
theorem Core.enqueue (hc : Core E s F) (hE : 0 ∉ E) (hx : x ∈ E)
    (hcpu : (s.se x).onRq = false → s.cpu x = r) (hn : E.card + 1 < n) :
    ∃ s' F', enqueueEntity n r x s = some s' ∧ Core E s' F' ∧
      (∀ r', (s'.rq r').curr = (s.rq r').curr) ∧ ∀ y, y ≠ x → s'.se y = s.se y := by
  by_cases hguard : r = 0 ∨ x = 0 ∨ !ptrSane r ∨ !ptrSane x ∨ (s.se x).onRq
  · exact ⟨s, F, if_pos hguard, hc, fun _ => rfl, fun _ _ => rfl⟩
  have hguard' := hguard
  simp only [not_or, Bool.not_eq_true', Bool.not_eq_false, Bool.not_eq_true] at hguard'
  obtain ⟨hr0, hx0, hr, hxs, hoff⟩ := hguard'
  have hxr := hcpu hoff
  have hnode := hc.unlinked x hx hoff
  have hxT : x ∉ inorder (F r) := fun h => by
    rw [hc.mem, hoff] at h
    cases h.1
  have hk := hc.queue r
  have hlen := hc.length_le r
  -- the link of the entity
  obtain ⟨k, side, lm, hplug, hrun, hside, hlm, hL, hR⟩ :=
    descend_root (n := n) hk.good.links hk.sorted hxT (by omega)
  have hin : inorder (F r) = before k ++ after k := by
    rw [hplug, inorder_plug, inorder, append_nil]
  -- the insertion, after the least deadline of the entity has been set
  have hgood : Good (updateMinDeadline s.se)
      ⟨s.node, (s.rq r).root, update s.minDeadline x (s.se x).deadline⟩ [] (F r) :=
    Good.congr hk.good rfl (fun _ _ => rfl)
      (fun z hz => update_of_ne (fun e : z = x => hxT (e ▸ hz)) _ _) fun _ _ => rfl
  have hheld := hgood.held
  have hvalid := hk.valid
  rw [hplug] at hheld hvalid
  have hxk : x ∉ addrs k := fun h => hxT (by rw [hplug]; exact mem_inorder_plug.mpr (.inr h))
  have hklen : k.length + 1 < n := by
    have hk' := length_le_addrs k
    rw [hplug, length_inorder_plug] at hlen
    omega
  obtain ⟨h', T, hins, hh, hv, hT⟩ := insert_spec
    (fun _ => updateMinDeadline_lawful s.se) (held_plug.mp hheld) hvalid hx0 hxk hside hklen
  obtain ⟨v, m, hs'⟩ := enqueueEntity_eq hguard hnode hrun hins
  refine ⟨_, update F r T, hs', ?_, field_setRq Rq.curr (by rfl), fun y hy => update_of_ne hy _ _⟩
  refine hc.replace hE hxr rfl ?_ (fun r' hr' => update_of_ne hr' _ _)
    (fun y hy => update_of_ne hy _ _) ?_ ?_ ?_ ?_ ?_ ?_
  · have hsame : ∀ y, Same (s.se y) (update s.se x { s.se x with onRq := true } y) :=
      same_update ⟨rfl, rfl, rfl⟩
    refine ⟨?_, hv, ?_, ?_, ?_, ?_⟩
    · rw [updateMinDeadline_congr fun y => (hsame y).2.1]
      simpa [heap] using hh.good trivial
    · have hs := hk.sorted
      rw [hin] at hs
      rw [hT]
      exact (hs.insert hL hR).congr (fun y _ => (hsame y).1) fun y _ => (hsame y).2.1
    · rw [hT, hk.leftmost, hin]
      cases hb : before k with
      | nil => simp [hlm.mpr hb]
      | cons y L =>
        have hlm' : lm = false := by
          cases lm with
          | false => rfl
          | true => cases (hlm.mp rfl).symm.trans hb
        simp [hlm']
    · simp only [update_self]
      rw [hT, hk.running, hin]
      simp only [length_append, length_cons]
      omega
    · simp only [update_self]
      rw [map_congr_left fun y _ => (hsame y).2.2, hT, hk.weight, hin]
      simp only [map_append, map_cons, sum_append, sum_cons]
      omega
  · simp
  · intro z hz0 hzx hzT
    obtain ⟨hzn, hza⟩ := hh.frame z hz0 hzT (by simp [addrs])
    exact ⟨hzn, hza.trans (update_of_ne hzx _ _)⟩
  · intro y hy
    rw [hT, hin]
    simp [hy]
  · simp [hT]
  · exact fun _ => ⟨hx, hxs, hxr ▸ hr0, hxr ▸ hr⟩
  · simp

/-! ## Out of the queue -/

theorem dequeueEntity_eq {h : Heap ℕ} {next : ℕ}
    (hguard : ¬(r = 0 ∨ x = 0 ∨ !ptrSane r ∨ !ptrSane x ∨ !(s.se x).onRq))
    (hnext : rbNext n (s.heap r) x = some next)
    (herase : rbEraseAugmented n (updateMinDeadline s.se) x (s.heap r) = some h) :
    ∃ v m l, dequeueEntity n r x s = some
      { s with
        node := update h.node x unlinked
        minDeadline := h.aug
        se := update s.se x { s.se x with lag := l, onRq := false }
        rq := update s.rq r
          { s.rq r with
            root := h.root
            leftmost := if (s.rq r).leftmost = x then next else (s.rq r).leftmost
            vtime := v
            minVruntime := m
            totalWeight := ((s.rq r).totalWeight + 2 ^ 64 - (s.se x).weight) % 2 ^ 64
            nrRunning := ((s.rq r).nrRunning + 2 ^ 32 - 1) % 2 ^ 32 } } := by
  generalize hl : Int.bmod (int64 (s.rq r).vtime - int64 (s.se x).vruntime) (2 ^ 64) = l
  have hcb : updateMinDeadline (update s.se x { s.se x with lag := l }) =
      updateMinDeadline s.se := updateMinDeadline_congr fun y =>
    (same_update (by exact ⟨rfl, rfl, rfl⟩) y).2.1
  choose v m hfloor using updateMinVruntime_eq r
  rw [dequeueEntity, if_neg hguard]
  by_cases hleft : (s.rq r).leftmost = x
  · simp only [setSe, setRq, setHeap, heap, hl, hcb, update_self, update_idem, hleft,
      bind_eq_bind, bind_some] at hnext herase ⊢
    simp only [hnext, herase, bind_some, hfloor, setRq, update_self, update_idem]
    exact ⟨_, _, l, rfl⟩
  · simp only [setSe, setRq, setHeap, heap, hl, hcb, update_self, update_idem, hleft,
      bind_eq_bind, bind_some] at herase ⊢
    simp only [herase, bind_some, hfloor, setRq, update_self, update_idem]
    exact ⟨_, _, l, rfl⟩

section

variable (hc : Core E s F)
include hc

/-- **An entity is taken out of the queue of its processor.** -/
theorem Core.dequeue (hE : 0 ∉ E) (hcpu : (s.se x).onRq = true → s.cpu x = r) (hn : E.card ≤ n) :
    ∃ s' F', dequeueEntity n r x s = some s' ∧ Core E s' F' ∧ (s'.se x).onRq = false ∧
      (∀ r', (s'.rq r').curr = (s.rq r').curr) ∧ ∀ y, y ≠ x → s'.se y = s.se y := by
  rcases hon : (s.se x).onRq with _ | _
  · exact ⟨s, F, if_pos (by simp [hon]), hc, hon, fun _ => rfl, fun _ _ => rfl⟩
  have hxr := hcpu hon
  obtain ⟨hx, hxs, hr0, hr⟩ := hc.entity x hon
  rw [hxr] at hr0 hr
  have hx0 : x ≠ 0 := fun e => hE (e ▸ hx)
  have hguard : ¬(r = 0 ∨ x = 0 ∨ !ptrSane r ∨ !ptrSane x ∨ !(s.se x).onRq) := by
    simp [hr0, hx0, hr, hxs, hon]
  have hk := hc.queue r
  have hlen := hc.length_le r
  have hnodup := hk.good.links.nodup
  rw [addrs, append_nil] at hnodup
  obtain ⟨L, R, hin⟩ := append_of_mem ((hc.mem r x).mpr ⟨hon, hxr⟩)
  obtain ⟨hnext, -⟩ := neighbours_append (n := n) hk.good.links hin (by omega)
  obtain ⟨h', T, N, herase, hh, hv, hT⟩ := erase_member (n := n)
    (fun _ => updateMinDeadline_lawful s.se) hk.good.held hk.valid hin (by omega)
  obtain ⟨v, m, l, hs'⟩ := dequeueEntity_eq hguard hnext herase
  generalize hw : ((s.rq r).totalWeight + 2 ^ 64 - (s.se x).weight) % 2 ^ 64 = w at hs'
  generalize hc' : ((s.rq r).nrRunning + 2 ^ 32 - 1) % 2 ^ 32 = c at hs'
  rw [hin, nodup_middle, nodup_cons] at hnodup
  have hxT : x ∉ inorder T := hT ▸ hnodup.1
  refine ⟨_, update F r T, hs', ?_, by simp, field_setRq Rq.curr (by rfl),
    fun y hy => update_of_ne hy _ _⟩
  refine hc.replace hE hxr rfl ?_ (fun r' hr' => update_of_ne hr' _ _)
    (fun y hy => update_of_ne hy _ _) ?_ ?_ ?_ ?_ ?_ ?_
  · have hsame : ∀ y, Same (s.se y) (update s.se x { s.se x with lag := l, onRq := false } y) :=
      same_update ⟨rfl, rfl, rfl⟩
    have hsub : (L ++ R).Sublist (L ++ x :: R) := Sublist.append_left (sublist_cons_self x R) L
    refine ⟨?_, hv, ?_, ?_, ?_, ?_⟩
    · refine Good.congr (hh.good trivial) (by simp [heap])
        (fun z hz => update_of_ne (fun e : z = x => hxT (e ▸ hz)) _ _)
        (fun _ _ => rfl) fun z _ => ?_
      rw [(hsame z).2.1]
    · have hs := hk.sorted
      rw [hin] at hs
      rw [hT]
      exact Sorted.congr (Pairwise.sublist hsub hs) (fun y _ => (hsame y).1)
        fun y _ => (hsame y).2.1
    · rw [hT, hk.leftmost, hin]
      cases L with
      | nil => simp
      | cons y L =>
        have hyx : y ≠ x := by
          rintro rfl
          simp at hnodup
        simp [hyx]
    · simp only [update_self]
      rw [hT, ← hc', hk.running, hin]
      simp only [length_append, length_cons]
      omega
    simp only [update_self]
    rw [map_congr_left fun y _ => (hsame y).2.2, hT, ← hw, hk.weight, hin]
    simp only [map_append, map_cons, sum_append, sum_cons]
    have hwx := hc.weights x
    omega
  · simp
  · intro z hz0 hzx hzT
    obtain ⟨hzn, hza⟩ := hh.frame z hz0 hzT (by simp [addrs])
    refine ⟨?_, hza⟩
    dsimp only
    rw [update_of_ne hzx, hzn]
    exact update_of_ne hzx _ _
  · intro y hy
    rw [hT, hin]
    simp [hy]
  · simp [hxT]
  · simp
  · simp

/-! ## The next entity -/

/-- **The entity that is picked is the one a scan of the queue picks**, and only the virtual time of
the queue changes. -/
theorem Core.pick (hcard : E.card < 2 ^ 32) (hn : E.card < n) (r : ℕ) :
    ∃ v, pickNextEntity n r s = some (linearScan s.se (s.rq r).vtime (inorder (F r)),
      s.setRq r { s.rq r with vtime := v }) := by
  have hself : ∀ p : ℕ, some (p, s) =
      some (p, s.setRq r { s.rq r with vtime := (s.rq r).vtime }) := by
    intro p
    rw [setRq, update_eq_self]
  have hk := hc.queue r
  have hlen := hc.length_le r
  have hroot : (s.rq r).root = top (F r) := hk.good.links.root_eq
  by_cases hempty : r = 0 ∨ (s.rq r).root = 0
  · refine ⟨(s.rq r).vtime, (if_pos hempty).trans ?_⟩
    have hnil : inorder (F r) = [] := by
      rcases hempty with hr | hr
      · refine eq_nil_iff_forall_not_mem.mpr fun x hx => ?_
        obtain ⟨hon, hcpu⟩ := (hc.mem r x).mp hx
        exact (hc.entity x hon).2.2.1 (hcpu.trans hr)
      · by_contra hne
        exact hk.good.links.top_ne_zero (fun e => hne (by rw [e]; rfl)) (hroot ▸ hr)
    rw [hnil]
    exact hself _
  have hne : F r ≠ .nil := fun e => hempty (.inr (by rw [hroot, e]; rfl))
  obtain ⟨f, Q, hQ⟩ : ∃ f Q, inorder (F r) = f :: Q := by
    cases hF : inorder (F r) with
    | nil => exact absurd (mem_top hne) (by rw [hF]; exact not_mem_nil)
    | cons f Q => exact ⟨f, Q, rfl⟩
  have hleft : (s.rq r).leftmost = f := by rw [hk.leftmost, hQ]; rfl
  have h0 : 0 ∉ inorder (F r) := fun h => hk.good.links.nonzero (mem_append_left _ h)
  have hf0 : f ≠ 0 := fun e => h0 (by rw [hQ, e]; exact mem_cons_self)
  obtain ⟨g, hg⟩ : ∃ g, updateMinDeadline s.se = some g := ⟨_, rfl⟩
  have hexact := (hk.good.exact g hg).1
  rw [pickNextEntity]
  simp only [if_neg hempty, hleft, hf0, ne_eq, not_false_eq_true, and_true, true_and] at hself ⊢
  by_cases hone : (s.rq r).nrRunning = 1
  · -- one entity waits
    rw [if_pos hone]
    have hlone : Q = [] := by
      rw [hk.running, hQ] at hone
      rw [hQ] at hlen
      simp only [length_cons] at hone hlen
      exact length_eq_zero_iff.mp (by omega)
    exact ⟨_, by rw [hQ, hlone, linearScan_singleton]; exact hself f⟩
  rw [if_neg hone]
  by_cases hfirst : (s.se f).vruntime ≤ (s.rq r).vtime ∧
      (s.se f).deadline ≤ s.minDeadline (s.rq r).root
  · -- the first entity has the smallest deadline
    rw [if_pos hfirst]
    have hmin : ∀ y ∈ inorder (F r), (s.se f).deadline ≤ (s.se y).deadline := by
      intro y hy
      have hval : value g (F r) = some (s.minDeadline (s.rq r).root) := by
        rw [hroot]
        cases hF : F r with
        | nil => exact absurd hF hne
        | node a l b =>
          rw [hF] at hexact
          rw [value, ← hexact.1]
          rfl
      exact Nat.le_trans hfirst.2 (value_le_deadline hg hval hy)
    refine ⟨(s.rq r).vtime, ?_⟩
    rw [hQ, linearScan_first hf0 hfirst.1 fun y hy => hmin y (by rw [hQ]; exact .tail _ hy)]
    exact hself f
  rw [if_neg hfirst]
  have hsearch : ∀ best, pickCandidate (s.heap r) s.se (s.rq r).vtime n (s.rq r).root best =
      some (scan s.se (s.rq r).vtime best (inorder (F r))) := fun best => by
    rw [hroot]
    exact pickCandidate_spec hg hk.good.links hexact hk.sorted (by omega)
  have hscan := scan_spec s.se (s.rq r).vtime h0
  simp only [hsearch, bind_eq_bind, bind_some]
  rw [linearScan]
  by_cases hel : (s.se f).vruntime ≤ (s.rq r).vtime
  · rw [if_pos hel, hQ, scan_self hf0 hel, ← hQ]
    rcases hscan with ⟨-, hnone⟩ | ⟨hsome, -⟩
    · exact absurd (hnone f (by rw [hQ]; exact mem_cons_self)) (Nat.not_lt.mpr hel)
    · rw [if_neg hsome, if_neg hsome]
      exact ⟨_, hself _⟩
  rw [if_neg hel]
  by_cases hzero : scan s.se (s.rq r).vtime 0 (inorder (F r)) = 0
  · rw [if_pos hzero, if_pos hzero, if_pos (Nat.lt_of_not_le hel), hQ]
    exact ⟨_, rfl⟩
  · rw [if_neg hzero, if_neg hzero]
    exact ⟨_, hself _⟩

/-! ## The other calls -/

theorem Core.congr (hnode : s'.node = s.node) (hcpu : s'.cpu = s.cpu)
    (hroot : ∀ r, (s'.rq r).root = (s.rq r).root)
    (hleft : ∀ r, (s'.rq r).leftmost = (s.rq r).leftmost)
    (hrun : ∀ r, (s'.rq r).nrRunning = (s.rq r).nrRunning)
    (hweight : ∀ r, (s'.rq r).totalWeight = (s.rq r).totalWeight)
    (hon : ∀ x, (s'.se x).onRq = (s.se x).onRq)
    (hse : ∀ x, (s.se x).onRq = true → Same (s.se x) (s'.se x) ∧ s'.minDeadline x = s.minDeadline x)
    (hw : ∀ x, (s'.se x).weight < 2 ^ 32) : Core E s' F := by
  have hqueue : ∀ r x, x ∈ inorder (F r) → (s.se x).onRq = true := fun r x hx =>
    ((hc.mem r x).mp hx).1
  refine ⟨fun r => ?_, fun r x => ?_, fun x hx => ?_, fun x hxE hx => ?_, hw⟩
  · exact (hc.queue r).congr (hroot r) (hleft r) (hrun r) (hweight r) (fun z _ => by rw [hnode])
      (fun z hz => (hse z (hqueue r z hz)).2) fun z hz => (hse z (hqueue r z hz)).1
  · rw [hon, hcpu]
    exact hc.mem r x
  · rw [hon] at hx
    rw [hcpu]
    exact hc.entity x hx
  · rw [hon] at hx
    rw [hnode]
    exact hc.unlinked x hxE hx

theorem Core.setSe (hx : (s.se x).onRq = false) (he : e.onRq = false)
    (hw : e.weight < 2 ^ 32) : Core E (s.setSe x e) F := by
  refine hc.congr rfl rfl (fun _ => rfl) (fun _ => rfl) (fun _ => rfl) (fun _ => rfl)
    (onRq_setSe (he.trans hx.symm)) (fun y hy => ⟨?_, rfl⟩)
    ((forall_update_iff s.se fun _ e => e.weight < 2 ^ 32).mpr ⟨hw, fun y _ => hc.weights y⟩)
  simp only [Sched.setSe, update_of_ne (ne_of_onRq hx hy)]
  exact ⟨rfl, rfl, rfl⟩

theorem Core.setRq (hroot : q.root = (s.rq r).root)
    (hleft : q.leftmost = (s.rq r).leftmost) (hrun : q.nrRunning = (s.rq r).nrRunning)
    (hweight : q.totalWeight = (s.rq r).totalWeight) : Core E (s.setRq r q) F :=
  hc.congr rfl rfl (field_setRq Rq.root hroot) (field_setRq Rq.leftmost hleft)
    (field_setRq Rq.nrRunning hrun) (field_setRq Rq.totalWeight hweight) (fun _ => rfl)
    (fun _ _ => ⟨⟨rfl, rfl, rfl⟩, rfl⟩) hc.weights

theorem Core.setMinDeadline (hx : (s.se x).onRq = false) (d : ℕ) :
    Core E { s with minDeadline := update s.minDeadline x d } F :=
  hc.congr rfl rfl (fun _ => rfl) (fun _ => rfl) (fun _ => rfl) (fun _ => rfl) (fun _ => rfl)
    (fun _ hy => ⟨⟨rfl, rfl, rfl⟩, update_of_ne (ne_of_onRq hx hy) _ _⟩) hc.weights

end

end AvoryOS.Eevfd
