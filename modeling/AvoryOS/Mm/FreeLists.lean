import AvoryOS.Mm.Zone
import Mathlib.Algebra.BigOperators.Group.Finset.Basic
import Mathlib.Algebra.Order.BigOperators.Group.Finset
import Mathlib.Order.Interval.Finset.Nat
import Mathlib.Order.Interval.Set.Basic

/-!
# The free blocks of the zones

`FreeLists m s L pend` says that the lists of the zones hold the blocks `L`: they are aligned,
do not overlap, and cover the frames that the bitmap shows as free, except for those in `pend`,
which are on their way into or out of a list.  Under it a header is valid exactly when its block
is linked, so none of the repairs of the lists ever takes place.
-/

namespace AvoryOS.Mm

open Circular Function List

/-- For every zone and order the first frames of the free blocks, in the order of the list. -/
abbrev Blocks := ℕ → ℕ → List ℕ

abbrev frames (p k : ℕ) : Set ℕ := Set.Ico p (p + 2 ^ k)

theorem self_mem_frames (p k : ℕ) : p ∈ frames p k :=
  ⟨Nat.le_refl p, Nat.lt_add_of_pos_right (Nat.two_pow_pos k)⟩

namespace Blocks

variable {L : Blocks} {z z' k k' p x : ℕ}

def add (L : Blocks) (z k p : ℕ) : Blocks :=
  update L z (update (L z) k (L z k ++ [p]))

def drop (L : Blocks) (z k p : ℕ) : Blocks :=
  update L z (update (L z) k ((L z k).erase p))

def pages (L : Blocks) (z : ℕ) : ℕ := ∑ k ∈ Finset.range maxOrder, (L z k).length * 2 ^ k

theorem add_self : L.add z k p z k = L z k ++ [p] := by simp [add]

theorem drop_self : L.drop z k p z k = (L z k).erase p := by simp [drop]

theorem add_of_ne (h : ¬(z' = z ∧ k' = k)) : L.add z k p z' k' = L z' k' := by
  by_cases hz : z' = z
  · subst hz
    rw [add, update_self, update_of_ne fun hk => h ⟨rfl, hk⟩]
  · rw [add, update_of_ne hz]

theorem drop_of_ne (h : ¬(z' = z ∧ k' = k)) : L.drop z k p z' k' = L z' k' := by
  by_cases hz : z' = z
  · subst hz
    rw [drop, update_self, update_of_ne fun hk => h ⟨rfl, hk⟩]
  · rw [drop, update_of_ne hz]

theorem mem_add : x ∈ L.add z k p z' k' ↔ x ∈ L z' k' ∨ z' = z ∧ k' = k ∧ x = p := by
  by_cases h : z' = z ∧ k' = k
  · obtain ⟨rfl, rfl⟩ := h
    simp [add_self]
  · rw [add_of_ne h]
    tauto

theorem mem_drop (hnd : (L z k).Nodup) :
    x ∈ L.drop z k p z' k' ↔ x ∈ L z' k' ∧ ¬(z' = z ∧ k' = k ∧ x = p) := by
  by_cases h : z' = z ∧ k' = k
  · obtain ⟨rfl, rfl⟩ := h
    rw [drop_self, hnd.mem_erase_iff]
    tauto
  · rw [drop_of_ne h]
    tauto

/-- The frames of one order of a zone are counted by its list. -/
theorem le_pages (hk : k < maxOrder) : (L z k).length * 2 ^ k ≤ L.pages z :=
  Finset.single_le_sum (f := fun k => (L z k).length * 2 ^ k) (fun _ _ => Nat.zero_le _)
    (Finset.mem_range.mpr hk)

/-- Changing one list changes the number of free frames by what that list holds. -/
theorem pages_congr (L' : Blocks) (hk : k < maxOrder) (h : ∀ j ≠ k, L' z j = L z j) :
    L'.pages z + (L z k).length * 2 ^ k = L.pages z + (L' z k).length * 2 ^ k := by
  have hmem := Finset.mem_range.mpr hk
  have h1 := Finset.add_sum_erase _ (fun j => (L' z j).length * 2 ^ j) hmem
  have h2 := Finset.add_sum_erase _ (fun j => (L z j).length * 2 ^ j) hmem
  have h3 : ∑ j ∈ (Finset.range maxOrder).erase k, (L' z j).length * 2 ^ j =
      ∑ j ∈ (Finset.range maxOrder).erase k, (L z j).length * 2 ^ j :=
    Finset.sum_congr rfl fun j hj => by rw [h j (Finset.ne_of_mem_erase hj)]
  rw [pages, pages]
  omega

end Blocks

/-- The lists hold the blocks `L`, and these are the free frames outside `pend`. -/
structure FreeLists (m : Machine) (s : Pmm) (L : Blocks) (pend : Set ℕ) : Prop where
  loop : ∀ z, ∀ k < maxOrder, Loop s.node (.head z k) ((L z k).map .page)
  order_lt : ∀ {z k p}, p ∈ L z k → k < maxOrder
  aligned : ∀ {z k p}, p ∈ L z k → 2 ^ k ∣ p
  header : ∀ {z k p}, p ∈ L z k → s.order p = k ∧ s.magic p = m.magic z
  /-- A tag is found on linked blocks only. -/
  linked : ∀ {z p}, s.magic p = m.magic z → ∃ k, p ∈ L z k
  free : ∀ {z k p}, p ∈ L z k → ∀ q ∈ frames p k, isManaged m s q = true ∧ s.bitmap q = false
  apart : ∀ {z k p z' k' p'}, p ∈ L z k → p' ∈ L z' k' → ∀ q ∈ frames p k, q ∈ frames p' k' →
    z = z' ∧ k = k' ∧ p = p'
  covers : ∀ {q}, s.bitmap q = false → q ∈ pend ∨ ∃ z k p, p ∈ L z k ∧ q ∈ frames p k
  pending : ∀ {q}, q ∈ pend → isManaged m s q = true ∧ s.bitmap q = false ∧
    ∀ {z k p}, p ∈ L z k → q ∉ frames p k
  count : ∀ z, ∀ k < maxOrder, (s.zone z).freeBlocks k = (L z k).length
  total : ∀ z, (s.zone z).freePagesInLists = L.pages z

namespace FreeLists

variable {m : Machine} {s : Pmm} {L : Blocks} {pend : Set ℕ} {z k p q : ℕ}

section

variable (h : FreeLists m s L pend)
include h

theorem nodup (z k : ℕ) : (L z k).Nodup := by
  rcases Nat.lt_or_ge k maxOrder with hk | hk
  · exact Nodup.of_map _ (nodup_cons.mp (h.loop z k hk).nodup).2
  cases hl : L z k with
  | nil => exact nodup_nil
  | cons p ps =>
    have hp := h.order_lt (hl ▸ mem_cons_self : p ∈ L z k)
    omega

theorem self_free (hp : p ∈ L z k) :
    isManaged m s p = true ∧ s.bitmap p = false := h.free hp p (self_mem_frames p k)

theorem readable_of_mem {x : Ptr} (hx : x ∈ Ptr.head z k :: (L z k).map .page) :
    linkReadable m s x (.head z k) = true ∧ x ≠ .wild := by
  rcases mem_cons.mp hx with rfl | hx
  · exact ⟨by simp [linkReadable], by simp⟩
  · obtain ⟨q, hq, rfl⟩ := mem_map.mp hx
    exact ⟨by simp [linkReadable, (h.self_free hq).1], by simp⟩

/-- **A header is valid exactly when its block is linked.** -/
theorem nodeValid_iff : nodeValid m s z (.page p) k = true ↔ p ∈ L z k := by
  refine ⟨fun hv => ?_, fun hp => ?_⟩
  · simp only [nodeValid, Bool.and_eq_true, decide_eq_true_eq] at hv
    obtain ⟨⟨⟨⟨⟨⟨⟨⟨-, -⟩, hord⟩, hmag⟩, -⟩, -⟩, -⟩, -⟩, -⟩ := hv
    obtain ⟨k', hk'⟩ := h.linked hmag
    rwa [← hord, (h.header hk').1]
  have hk := h.order_lt hp
  obtain ⟨⟨hn, hn'⟩, hpv, hpv'⟩ := (h.loop z k hk).neighbours (mem_map_of_mem hp)
  obtain ⟨hman, hbit⟩ := h.self_free hp
  obtain ⟨hord, hmag⟩ := h.header hp
  simp [nodeValid, hman, hbit, hord, hmag, (h.readable_of_mem hn).1, (h.readable_of_mem hpv).1,
    hn', hpv', Nat.mod_eq_zero_of_dvd (h.aligned hp)]

end

end FreeLists

/-! ## Counters -/

@[simp] theorem Zone.account_freeBlocks (zn : Zone) (k n : ℕ) :
    (zn.account k n).freeBlocks = update zn.freeBlocks k n := by
  unfold Zone.account
  split
  · rename_i h
    rw [← h, update_eq_self]
  · rfl

theorem Zone.account_pages {zn : Zone} {k n : ℕ}
    (h : zn.freeBlocks k * 2 ^ k ≤ zn.freePagesInLists) : (zn.account k n).freePagesInLists =
      zn.freePagesInLists - zn.freeBlocks k * 2 ^ k + n * 2 ^ k := by
  unfold Zone.account
  split
  · rename_i e
    subst e
    omega
  · rfl

namespace FreeLists

variable {m : Machine} {s : Pmm} {L : Blocks} {pend : Set ℕ} {z k p q : ℕ}

open Blocks

section

variable (h : FreeLists m s L pend)
include h

theorem counters (hk : k < maxOrder) {L' : Blocks}
    (hself : ∀ z' k', ¬(z' = z ∧ k' = k) → L' z' k' = L z' k') (z' : ℕ) :
    let zn := update s.zone z ((s.zone z).account k (L' z k).length) z'
    (∀ k' < maxOrder, zn.freeBlocks k' = (L' z' k').length) ∧
      zn.freePagesInLists = L'.pages z' := by
  by_cases hz : z' = z
  swap
  · simp only [update_of_ne hz]
    refine ⟨fun k' hk' => ?_, ?_⟩
    · rw [h.count z' k' hk', hself _ _ fun e => hz e.1]
    · rw [h.total]
      exact Finset.sum_congr rfl fun j _ => by rw [hself _ _ fun e => hz e.1]
  subst hz
  have hle := le_pages (L := L) (z := z') hk
  have hpages := pages_congr L' hk fun j hj => hself z' j fun e => hj e.2
  rw [← h.total, ← h.count z' k hk] at hle
  simp only [update_self, Zone.account_freeBlocks, Zone.account_pages hle]
  refine ⟨fun k' hk' => ?_, ?_⟩
  · by_cases hkk : k' = k
    · rw [hkk, update_self]
    · rw [update_of_ne hkk, h.count z' k' hk', hself _ _ fun e => hkk e.2]
  · rw [h.count z' k hk, h.total] at hle ⊢
    omega

/-! ## Linking and unlinking -/

theorem link_eq (hk : k < maxOrder) (z p : ℕ) : link m s z p k =
      { s with
        order := update s.order p k
        magic := update s.magic p (m.magic z)
        node := addTail s.node (.page p) (.head z k)
        zone := update s.zone z ((s.zone z).account k (L.add z k p z k).length) } := by
  have hloop := h.loop z k hk
  have hprev := (h.readable_of_mem hloop.prev_head_mem).2
  have hnext : (s.node (.head z k)).next ≠ .wild :=
    (h.readable_of_mem (by have := hloop.seg.next_mem; simp at this ⊢; tauto)).2
  rw [add_self, length_append, ← h.count z k hk]
  simp [link, listAddTail, account, hprev, hnext]

theorem unlink_eq (hp : p ∈ L z k) : unlink s z p =
      { s with
        magic := update s.magic p 0
        node := del s.node (.page p) .wild
        zone := update s.zone z ((s.zone z).account k (L.drop z k p z k).length) } := by
  have hk := h.order_lt hp
  obtain ⟨⟨hn, -⟩, hpv, -⟩ := (h.loop z k hk).neighbours (mem_map_of_mem hp)
  have hnext := (h.readable_of_mem hn).2
  have hprev := (h.readable_of_mem hpv).2
  rw [drop_self, length_erase_of_mem hp, ← h.count z k hk]
  simp [unlink, listDel, account, hnext, hprev, (h.header hp).1]

theorem notMem_loop {z' k' : ℕ} (hne : ¬(z' = z ∧ k' = k)) {x : Ptr}
    (hx : x ∈ Ptr.head z' k' :: (L z' k').map .page) : x ∉ Ptr.head z k :: (L z k).map .page := by
  intro hx'
  rcases mem_cons.mp hx with rfl | hx
  · simp only [mem_cons, Ptr.head.injEq, mem_map, reduceCtorEq, and_false, exists_false,
      or_false] at hx'
    exact hne hx'
  obtain ⟨q, hq, rfl⟩ := mem_map.mp hx
  simp only [mem_cons, reduceCtorEq, mem_map, Ptr.page.injEq, exists_eq_right, false_or] at hx'
  obtain ⟨rfl, rfl, -⟩ := h.apart hq hx' q (self_mem_frames _ _) (self_mem_frames _ _)
  exact hne ⟨rfl, rfl⟩

/-- **Unlinking** takes a block out of its list; its frames are on their way. -/
theorem unlink_spec (hp : p ∈ L z k) :
    FreeLists m (unlink s z p) (L.drop z k p) (pend ∪ frames p k) := by
  have hk := h.order_lt hp
  have hdrop : ∀ {z' k' x}, x ∈ L.drop z k p z' k' ↔
      x ∈ L z' k' ∧ ¬(z' = z ∧ k' = k ∧ x = p) := mem_drop (h.nodup z k)
  rw [h.unlink_eq hp]
  refine
    { loop := fun z' k' hk' => ?_, order_lt := fun hx => h.order_lt (hdrop.mp hx).1
      aligned := fun hx => h.aligned (hdrop.mp hx).1, header := fun {z' k' x} hx => ?_
      linked := fun {z' x} hx => ?_, free := fun hx => h.free (hdrop.mp hx).1
      apart := fun hx hx' => h.apart (hdrop.mp hx).1 (hdrop.mp hx').1
      covers := fun {q} hq => ?_, pending := fun {q} hq => ?_
      count := fun z' => (h.counters hk (fun _ _ => drop_of_ne) z').1
      total := fun z' => (h.counters hk (fun _ _ => drop_of_ne) z').2 }
  · by_cases hzk : z' = z ∧ k' = k
    · obtain ⟨rfl, rfl⟩ := hzk
      rw [drop_self, map_erase fun _ _ => Ptr.page.inj]
      exact (h.loop z' k' hk').del_erase (mem_map_of_mem hp)
    · rw [drop_of_ne hzk]
      exact (h.loop z' k' hk').congr fun x hx =>
        (h.loop z k hk).del_of_notMem (mem_map_of_mem hp) (h.notMem_loop hzk hx)
  · -- only the header of `p` has changed
    obtain ⟨hold, hne⟩ := hdrop.mp hx
    have hxp : x ≠ p := by
      rintro rfl
      exact hne ((h.apart hold hp x (self_mem_frames _ _) (self_mem_frames _ _)).imp_right
        fun e => ⟨e.1, rfl⟩)
    simpa only [update_of_ne hxp] using h.header hold
  · by_cases hxp : x = p
    · rw [hxp] at hx
      simp only [update_self] at hx
      exact absurd hx.symm (m.magic_ne_zero z')
    · simp only [update_of_ne hxp] at hx
      obtain ⟨k', hk'⟩ := h.linked hx
      exact ⟨k', hdrop.mpr ⟨hk', fun e => hxp e.2.2⟩⟩
  · rcases h.covers hq with hq | ⟨z', k', x, hx, hqx⟩
    · exact .inl (.inl hq)
    by_cases he : z' = z ∧ k' = k ∧ x = p
    · obtain ⟨rfl, rfl, rfl⟩ := he
      exact .inl (.inr hqx)
    · exact .inr ⟨z', k', x, hdrop.mpr ⟨hx, he⟩, hqx⟩
  rcases hq with hq | hq
  · obtain ⟨hman, hbit, hout⟩ := h.pending hq
    exact ⟨hman, hbit, fun hx => hout (hdrop.mp hx).1⟩
  obtain ⟨hman, hbit⟩ := h.free hp q hq
  refine ⟨hman, hbit, fun hx hqx => (hdrop.mp hx).2 ?_⟩
  obtain ⟨rfl, rfl, rfl⟩ := h.apart (hdrop.mp hx).1 hp q hqx hq
  exact ⟨rfl, rfl, rfl⟩

end

/-- **Linking** puts a block whose frames were on their way into a list. -/
theorem link_spec (h : FreeLists m s L (pend ∪ frames p k)) (hk : k < maxOrder) (hal : 2 ^ k ∣ p)
    (hout : ∀ q ∈ pend, q ∉ frames p k) (z : ℕ) :
    FreeLists m (link m s z p k) (L.add z k p) pend := by
  have hadd : ∀ {z' k' x}, x ∈ L.add z k p z' k' ↔ x ∈ L z' k' ∨ z' = z ∧ k' = k ∧ x = p := mem_add
  have hnew : ∀ {q z' k' x}, q ∈ frames p k → x ∈ L z' k' → q ∉ frames x k' :=
    fun hq hx => (h.pending (.inr hq)).2.2 hx
  have hpx : ∀ {z' k'}, p ∉ L z' k' := fun hx =>
    hnew (self_mem_frames p k) hx (self_mem_frames _ _)
  have hloop := h.loop z k hk
  have hpl : ∀ z' k', Ptr.page p ∉ Ptr.head z' k' :: (L z' k').map .page := fun z' k' => by
    simpa using hpx
  rw [h.link_eq hk]
  refine
    { loop := fun z' k' hk' => ?_, order_lt := fun hx => ?_, aligned := fun hx => ?_
      header := fun {z' k' x} hx => ?_, linked := fun {z' x} hx => ?_
      free := fun {z' k' x} hx q hq => ?_
      apart := fun {z1 k1 p1 z2 k2 p2} h1 h2 q hq1 hq2 => ?_
      covers := fun {q} hq => ?_, pending := fun {q} hq => ?_
      count := fun z' => (h.counters hk (fun _ _ => add_of_ne) z').1
      total := fun z' => (h.counters hk (fun _ _ => add_of_ne) z').2 }
  · by_cases hzk : z' = z ∧ k' = k
    · obtain ⟨rfl, rfl⟩ := hzk
      rw [add_self, map_append]
      exact hloop.addTail_append (hpl z' k')
    rw [add_of_ne hzk]
    refine (h.loop z' k' hk').congr fun x hx => hloop.addTail_of_notMem fun hx' => ?_
    rcases mem_cons.mp hx' with rfl | hx'
    · exact hpl z' k' hx
    · exact h.notMem_loop hzk hx hx'
  · rcases hadd.mp hx with hx | ⟨-, rfl, -⟩
    · exact h.order_lt hx
    · exact hk
  · rcases hadd.mp hx with hx | ⟨-, rfl, rfl⟩
    · exact h.aligned hx
    · exact hal
  · rcases hadd.mp hx with hold | ⟨rfl, rfl, rfl⟩
    · have hxp : x ≠ p := by rintro rfl; exact hpx hold
      simpa only [update_of_ne hxp] using h.header hold
    · simp
  · by_cases hxp : x = p
    · rw [hxp] at hx ⊢
      simp only [update_self] at hx
      exact ⟨k, hadd.mpr (.inr ⟨(m.magic_injective hx).symm, rfl, rfl⟩)⟩
    · simp only [update_of_ne hxp] at hx
      obtain ⟨k', hk'⟩ := h.linked hx
      exact ⟨k', hadd.mpr (.inl hk')⟩
  · rcases hadd.mp hx with hx | ⟨rfl, rfl, rfl⟩
    · exact h.free hx q hq
    · exact ⟨(h.pending (.inr hq)).1, (h.pending (.inr hq)).2.1⟩
  · rcases hadd.mp h1 with o1 | ⟨rfl, rfl, rfl⟩
    · rcases hadd.mp h2 with o2 | ⟨rfl, rfl, rfl⟩
      · exact h.apart o1 o2 q hq1 hq2
      · exact absurd hq1 (hnew hq2 o1)
    · rcases hadd.mp h2 with o2 | ⟨rfl, rfl, rfl⟩
      · exact absurd hq2 (hnew hq1 o2)
      · exact ⟨rfl, rfl, rfl⟩
  · rcases h.covers hq with (hq | hq) | ⟨z', k', x, hx, hqx⟩
    · exact .inl hq
    · exact .inr ⟨z, k, p, hadd.mpr (.inr ⟨rfl, rfl, rfl⟩), hq⟩
    · exact .inr ⟨z', k', x, hadd.mpr (.inl hx), hqx⟩
  obtain ⟨hman, hbit, hfar⟩ := h.pending (.inl hq)
  refine ⟨hman, hbit, fun hx => ?_⟩
  rcases hadd.mp hx with hx | ⟨rfl, rfl, rfl⟩
  · exact hfar hx
  · exact hout q hq

/-! ## Checks change nothing -/

theorem account_self (hn : (s.zone z).freeBlocks k = q) : account s z k q = s := by
  rw [account, Zone.account, if_pos hn, update_eq_self]

theorem pageCount_pos (hp : isManaged m s p = true) : 0 < m.pageCount := by
  simp only [isManaged, Bool.and_eq_true, decide_eq_true_eq] at hp
  rw [Machine.pageCount]
  omega

section

variable (h : FreeLists m s L pend)
include h

theorem nonempty_eq (hk : k < maxOrder) (z : ℕ) :
    nonempty m z k m.pageCount s = (decide (L z k ≠ []), s) := by
  have hloop := h.loop z k hk
  unfold nonempty
  cases hl : L z k with
  | nil =>
    have hfirst := hloop.next_eq_head_iff.mpr (by rw [hl]; rfl)
    have hcount := h.count z k hk
    rw [hl] at hcount
    simpa [hfirst] using account_self hcount
  | cons p ps =>
    have hp : p ∈ L z k := hl ▸ mem_cons_self
    rw [hl] at hloop
    obtain ⟨n, hn⟩ := Nat.exists_eq_add_of_lt (pageCount_pos (h.self_free hp).1)
    simp [hloop.next_head, hn, h.nodeValid_iff.mpr hp]

theorem length_le (z k : ℕ) : (L z k).length ≤ m.pageCount := by
  rw [← toFinset_card_of_nodup (h.nodup z k), Machine.pageCount, ← Nat.card_Ico m.lowest m.highest]
  refine Finset.card_le_card fun p hp => Finset.mem_Ico.mpr ?_
  have hman := (h.self_free (mem_toFinset.mp hp)).1
  simp only [isManaged, Bool.and_eq_true, decide_eq_true_eq] at hman
  exact hman.1

theorem validateFrom_eq {xs : List ℕ} {left : ℕ} {prev : Ptr}
    (hseg : Seg s.node prev (xs.map .page) (.head z k)) (hxs : ∀ p ∈ xs, p ∈ L z k)
    (hlen : xs.length ≤ left) : validateFrom m z k left prev (s.node prev).next s = s := by
  induction xs generalizing left prev with
  | nil =>
    unfold validateFrom
    simp [show (s.node prev).next = Ptr.head z k from hseg.1]
  | cons p xs ih =>
    obtain ⟨left, rfl⟩ := Nat.exists_eq_succ_of_ne_zero (by
      rw [length_cons] at hlen; omega : left ≠ 0)
    have hp := hxs p mem_cons_self
    unfold validateFrom
    simp only [show (s.node prev).next = Ptr.page p from hseg.1.1, h.nodeValid_iff.mpr hp]
    exact ih hseg.2 (fun q hq => hxs q (mem_cons_of_mem _ hq)) (by rw [length_cons] at hlen; omega)

theorem validate_eq (hk : k < maxOrder) (z : ℕ) : validate m z k s = s :=
  h.validateFrom_eq (h.loop z k hk).seg (fun _ hp => hp) (h.length_le z k)

end

end FreeLists

/-! ## What stays the same -/

/-- The words of a frame that a free block uses. -/
def words (s : Pmm) (q : ℕ) : ListHead Ptr × ℕ × ℕ := (s.node (.page q), s.order q, s.magic q)

/-- Blocks of zone `z` have moved, and no frame that is taken has noticed. -/
structure Quiet (z : ℕ) (s s' : Pmm) : Prop where
  bitmap : s'.bitmap = s.bitmap
  managed : s'.managed = s.managed
  refcounts : s'.refcounts = s.refcounts
  words : ∀ q, s.bitmap q = true → words s' q = words s q
  zone : ∀ z' ≠ z, s'.zone z' = s.zone z'

theorem Quiet.refl (z : ℕ) (s : Pmm) : Quiet z s s :=
  ⟨rfl, rfl, rfl, fun _ _ => rfl, fun _ _ => rfl⟩

theorem Quiet.trans {z : ℕ} {s s' s'' : Pmm} (h : Quiet z s s') (h' : Quiet z s' s'') :
    Quiet z s s'' where
  bitmap := h'.bitmap.trans h.bitmap
  managed := h'.managed.trans h.managed
  refcounts := h'.refcounts.trans h.refcounts
  words q hq := (h'.words q (h.bitmap ▸ hq)).trans (h.words q hq)
  zone z' hz := (h'.zone z' hz).trans (h.zone z' hz)

theorem Quiet.isManaged {m : Machine} {z : ℕ} {s s' : Pmm} (h : Quiet z s s') (q : ℕ) :
    isManaged m s' q = Mm.isManaged m s q := by
  rw [Mm.isManaged, Mm.isManaged, h.managed]

/-- The lists and what they consist of are the same, and no tag is forged. -/
structure Elsewhere (m : Machine) (s s' : Pmm) : Prop where
  bitmap : s'.bitmap = s.bitmap
  managed : s'.managed = s.managed
  counters : ∀ z, (s'.zone z).freeBlocks = (s.zone z).freeBlocks ∧
    (s'.zone z).freePagesInLists = (s.zone z).freePagesInLists
  heads : ∀ z k, s'.node (.head z k) = s.node (.head z k)
  words : ∀ q, s.bitmap q = false → words s' q = words s q
  unforged : ∀ q, s.bitmap q = true → ∀ z, s'.magic q ≠ m.magic z

namespace FreeLists

variable {m : Machine} {s s' : Pmm} {L : Blocks} {pend : Set ℕ} {z k p q : ℕ}

section

variable (h : FreeLists m s L pend)
include h

theorem notMem_of_taken (hq : s.bitmap q = true) : q ∉ L z k := by
  intro hin
  rw [(h.self_free hin).2] at hq
  exact Bool.false_ne_true hq

/-- The tag of a frame that is taken is not that of a zone. -/
theorem magic_ne (hq : s.bitmap q = true) (z : ℕ) : s.magic q ≠ m.magic z := fun e =>
  let ⟨_, hin⟩ := h.linked e
  h.notMem_of_taken hq hin

theorem elsewhere (he : Elsewhere m s s') : FreeLists m s' L pend := by
  have hman : ∀ q, isManaged m s' q = isManaged m s q := fun q => by
    rw [isManaged, isManaged, he.managed]
  have hhdr : ∀ {z k p}, p ∈ L z k → words s' p = words s p := fun hp =>
    he.words _ (h.self_free hp).2
  exact
    { loop := fun z k hk => (h.loop z k hk).congr fun x hx => by
        rcases mem_cons.mp hx with rfl | hx
        · exact he.heads z k
        · obtain ⟨p, hp, rfl⟩ := mem_map.mp hx
          exact congrArg Prod.fst (hhdr hp)
      order_lt := h.order_lt
      aligned := h.aligned
      header := fun hp => by
        have := hhdr hp
        simp only [words, Prod.mk.injEq] at this
        rw [this.2.1, this.2.2]
        exact h.header hp
      linked := fun {z p} hp => by
        cases hb : s.bitmap p with
        | true => exact absurd hp (he.unforged p hb z)
        | false =>
          have := he.words p hb
          simp only [words, Prod.mk.injEq] at this
          exact h.linked (this.2.2 ▸ hp)
      free := fun hp q hq => by rw [hman, he.bitmap]; exact h.free hp q hq
      apart := h.apart
      covers := fun hq => h.covers (he.bitmap ▸ hq)
      pending := fun hq => by rw [hman, he.bitmap]; exact h.pending hq
      count := fun z k hk => by rw [(he.counters z).1]; exact h.count z k hk
      total := fun z => by rw [(he.counters z).2]; exact h.total z }

theorem link_quiet (hk : k < maxOrder) (hp : s.bitmap p = false)
    (z : ℕ) : Quiet z s (link m s z p k) := by
  rw [h.link_eq hk]
  refine ⟨rfl, rfl, rfl, fun q hq => ?_, fun z' hz => update_of_ne hz _ _⟩
  have hqp : q ≠ p := by
    rintro rfl
    rw [hp] at hq
    exact Bool.false_ne_true hq
  have hnode : addTail s.node (.page p) (.head z k) (.page q) = s.node (.page q) :=
    (h.loop z k hk).addTail_of_notMem (by simpa [hqp] using h.notMem_of_taken hq)
  simp [words, hnode, update_of_ne hqp]

theorem unlink_quiet (hp : p ∈ L z k) : Quiet z s (unlink s z p) := by
  rw [h.unlink_eq hp]
  refine ⟨rfl, rfl, rfl, fun q hq => ?_, fun z' hz => update_of_ne hz _ _⟩
  have hqp : q ≠ p := by
    rintro rfl
    exact h.notMem_of_taken hq hp
  have hnode : del s.node (.page p) .wild (.page q) = s.node (.page q) :=
    (h.loop z k (h.order_lt hp)).del_of_notMem (mem_map_of_mem hp)
      (by simpa using h.notMem_of_taken hq)
  simp [words, hnode, update_of_ne hqp]

/-! ## Frames are taken and given back -/

/-- The bitmap has changed on the frames that are on their way only. -/
theorem rebit {bm : ℕ → Bool} {pend' : Set ℕ}
    (hlist : ∀ {z k p}, p ∈ L z k → ∀ q ∈ frames p k, bm q = false ∧ q ∉ pend')
    (hcov : ∀ q, bm q = false → q ∈ pend' ∨ s.bitmap q = false ∧ q ∉ pend)
    (hpend : ∀ q ∈ pend', isManaged m s q = true ∧ bm q = false) (refs : ℕ → ℕ) :
    FreeLists m { s with bitmap := bm, refcounts := refs } L pend' :=
  { h with
    free := fun hp q hq => ⟨(h.free hp q hq).1, (hlist hp q hq).1⟩
    covers := fun {q} hq => (hcov q hq).imp_right fun ⟨hbit, hout⟩ =>
      (h.covers hbit).resolve_left hout
    pending := fun {q} hq =>
      ⟨(hpend q hq).1, (hpend q hq).2, fun hp hin => (hlist hp q hin).2 hq⟩ }

end

theorem markRange_block (v : Bool) (bm : ℕ → Bool)
    (h : ∀ q ∈ frames p k, m.lowest ≤ q ∧ q < m.highest) :
    markRange m v bm p (2 ^ k) = fun q => if p ≤ q ∧ q < p + 2 ^ k then v else bm q := by
  have hp := h p (self_mem_frames p k)
  have hpos := Nat.two_pow_pos k
  have hlast := h (p + 2 ^ k - 1) ⟨by omega, by omega⟩
  rw [markRange, if_pos hp, Nat.min_eq_left (by omega)]

theorem inRange_of_managed (hq : isManaged m s q = true) : m.lowest ≤ q ∧ q < m.highest := by
  simp only [isManaged, Bool.and_eq_true, decide_eq_true_eq] at hq
  exact hq.1

theorem taken (h : FreeLists m s L (frames p k)) (refs : ℕ → ℕ) : FreeLists m
    { s with bitmap := markRange m true s.bitmap p (2 ^ k), refcounts := refs } L ∅ := by
  rw [markRange_block _ _ fun q hq => inRange_of_managed (h.pending hq).1]
  refine h.rebit (fun hp q hq => ?_) (fun q hq => ?_) (fun q hq => absurd hq (Set.notMem_empty q)) _
  · have hout : ¬(p ≤ q ∧ q < p + 2 ^ k) := fun hin => (h.pending hin).2.2 hp hq
    exact ⟨by rw [if_neg hout]; exact (h.free hp q hq).2, Set.notMem_empty q⟩
  by_cases hin : p ≤ q ∧ q < p + 2 ^ k
  · rw [if_pos hin] at hq
    exact absurd hq.symm Bool.false_ne_true
  · rw [if_neg hin] at hq
    exact .inr ⟨hq, hin⟩

/-- The marks of a block are cleared: its frames are on their way in. -/
theorem given (h : FreeLists m s L ∅)
    (hblock : ∀ q ∈ frames p k, isManaged m s q = true ∧ s.bitmap q = true) :
    FreeLists m { s with bitmap := markRange m false s.bitmap p (2 ^ k) } L (frames p k) := by
  rw [markRange_block _ _ fun q hq => inRange_of_managed (hblock q hq).1]
  refine h.rebit (fun hp q hq => ?_) (fun q hq => ?_) (fun q hq => ?_) _
  · have hbit := (h.free hp q hq).2
    have hout : ¬(p ≤ q ∧ q < p + 2 ^ k) := fun hin => by
      rw [(hblock q hin).2] at hbit
      exact Bool.false_ne_true hbit.symm
    exact ⟨by rw [if_neg hout]; exact hbit, hout⟩
  · by_cases hin : p ≤ q ∧ q < p + 2 ^ k
    · exact .inl hin
    · rw [if_neg hin] at hq
      exact .inr ⟨hq, Set.notMem_empty q⟩
  · exact ⟨(hblock q hq).1, if_pos hq⟩

end FreeLists

end AvoryOS.Mm
