import AvoryOS.Mm.Pcp
import Mathlib.Data.List.Perm.Basic

/-!
# Every frame is in one place

A frame is in a free block, in one slot of a cache, in one slot of a pool, or somebody has a
reference to it.  While an operation runs it can hold frames in its hands; `Conserved m st hand`
counts these as well, and each step moves a frame from one place to another.
-/

namespace AvoryOS.Mm

open Function List

variable {m : Machine} {numa : Numa} {st st' : Caches} {hand hand' : List ℕ} {a c q z n : ℕ}
  {cpu : Option ℕ}

/-- The number of slots of all CPUs that hold an address. -/
def slots (piles : ℕ → List ℕ) (a : ℕ) : ℕ := ∑ c ∈ Finset.range maxCpus, (piles c).count a

/-- The number of places a frame is in, those in hand included. -/
def places (st : Caches) (hand : List ℕ) (q : ℕ) : ℕ :=
  hand.count (q * pageSize) + slots st.pcp (q * pageSize) + slots st.zero (q * pageSize) +
    (!st.pmm.bitmap q).toNat + min 1 (st.pmm.refcounts q)

def IsFrame (m : Machine) (st : Caches) (a : ℕ) : Prop :=
  ∃ q, a = q * pageSize ∧ isManaged m st.pmm q = true

/-- Every managed frame is in exactly one place, and the caches hold managed frames only. -/
structure Conserved (m : Machine) (st : Caches) (hand : List ℕ) : Prop where
  lists : ∃ L, FreeLists m st.pmm L ∅
  once : ∀ q, isManaged m st.pmm q = true → places st hand q = 1
  inHand : ∀ a ∈ hand, IsFrame m st a
  inCache : ∀ c, ∀ a ∈ st.pcp c, IsFrame m st a
  inPool : ∀ c, ∀ a ∈ st.zero c, IsFrame m st a
  idle : st.pcpInitialized = false → ∀ c, st.pcp c = [] ∧ st.zero c = []
  pcp_le : ∀ c, (st.pcp c).length ≤ pcpCapacity
  zero_le : ∀ c, (st.zero c).length ≤ zeroPoolCap
  nonnull : isManaged m st.pmm 0 = false

/-! ## Moving a frame -/

theorem pageSize_pos : 0 < pageSize := by decide

theorem slots_update (hc : c < maxCpus) (piles : ℕ → List ℕ) (l : List ℕ) (a : ℕ) :
    slots (update piles c l) a + (piles c).count a = slots piles a + l.count a := by
  have hmem := Finset.mem_range.mpr hc
  have h1 := Finset.add_sum_erase _ (fun c' => (update piles c l c').count a) hmem
  have h2 := Finset.add_sum_erase _ (fun c' => (piles c').count a) hmem
  have h3 : ∑ c' ∈ (Finset.range maxCpus).erase c, (update piles c l c').count a =
      ∑ c' ∈ (Finset.range maxCpus).erase c, (piles c').count a :=
    Finset.sum_congr rfl fun c' hc' => by rw [update_of_ne (Finset.ne_of_mem_erase hc')]
  rw [update_self] at h1
  rw [slots, slots]
  omega

variable {l : List ℕ}

variable {piles : ℕ → List ℕ}

theorem mem_update {P : ℕ → Prop}
    (h : ∀ c, ∀ a ∈ piles c, P a) (hl : ∀ a ∈ l, P a) : ∀ c', ∀ a ∈ update piles c l c', P a := by
  intro c' a ha
  by_cases hc : c' = c
  · rw [hc, update_self] at ha
    exact hl a ha
  · rw [update_of_ne hc] at ha
    exact h c' a ha

theorem length_update_le (h : ∀ c, (piles c).length ≤ n)
    (hl : l.length ≤ n) (c' : ℕ) : (update piles c l c').length ≤ n := by
  by_cases hc : c' = c
  · rw [hc, update_self]
    exact hl
  · rw [update_of_ne hc]
    exact h c'

variable {s : Pmm}

namespace Conserved

section

variable (h : Conserved m st hand)
include h

theorem perm (hp : hand'.Perm hand) : Conserved m st hand' :=
  { h with
    once := fun q hq => by
      rw [places, hp.count_eq]
      exact h.once q hq
    inHand := fun a ha => h.inHand a (hp.subset ha) }

theorem setPcp (hc : c < maxCpus) (hi : st.pcpInitialized = true)
    (hl : l.length ≤ pcpCapacity) (hp : (l ++ hand').Perm (st.pcp c ++ hand)) :
    Conserved m (st.setPcp c l) hand' := by
  have hframe : ∀ a ∈ l ++ hand', IsFrame m st a := fun a ha =>
    (mem_append.mp (hp.subset ha)).elim (h.inCache c a) (h.inHand a)
  refine
    { lists := h.lists, once := fun q hq => ?_
      inHand := fun a ha => hframe a (mem_append_right _ ha)
      inCache := mem_update h.inCache fun a ha => hframe a (mem_append_left _ ha)
      inPool := h.inPool, idle := fun e => absurd (hi.symm.trans e) (by decide)
      pcp_le := length_update_le h.pcp_le hl, zero_le := h.zero_le, nonnull := h.nonnull }
  have hslots := slots_update hc st.pcp l (q * pageSize)
  have hcount := hp.count_eq (q * pageSize)
  have honce := h.once q hq
  simp only [count_append] at hcount
  simp only [places, Caches.setPcp] at honce ⊢
  omega

theorem setZero (hc : c < maxCpus) (hi : st.pcpInitialized = true)
    (hl : l.length ≤ zeroPoolCap) (hp : (l ++ hand').Perm (st.zero c ++ hand)) :
    Conserved m (st.setZero c l) hand' := by
  have hframe : ∀ a ∈ l ++ hand', IsFrame m st a := fun a ha =>
    (mem_append.mp (hp.subset ha)).elim (h.inPool c a) (h.inHand a)
  refine
    { lists := h.lists, once := fun q hq => ?_
      inHand := fun a ha => hframe a (mem_append_right _ ha)
      inCache := h.inCache
      inPool := mem_update h.inPool fun a ha => hframe a (mem_append_left _ ha)
      idle := fun e => absurd (hi.symm.trans e) (by decide)
      pcp_le := h.pcp_le, zero_le := length_update_le h.zero_le hl, nonnull := h.nonnull }
  have hslots := slots_update hc st.zero l (q * pageSize)
  have hcount := hp.count_eq (q * pageSize)
  have honce := h.once q hq
  simp only [count_append] at hcount
  simp only [places, Caches.setZero] at honce ⊢
  omega

/-- Frames move between the hands and the zones or their owners. -/
theorem replace (hl : ∃ L, FreeLists m s L ∅)
    (hm : s.managed = st.pmm.managed) (hf : ∀ a ∈ hand', IsFrame m st a)
    (hp : ∀ q, isManaged m st.pmm q = true →
      hand'.count (q * pageSize) + (!s.bitmap q).toNat + min 1 (s.refcounts q) =
        hand.count (q * pageSize) + (!st.pmm.bitmap q).toNat + min 1 (st.pmm.refcounts q)) :
    Conserved m { st with pmm := s } hand' := by
  have hman : ∀ q, isManaged m s q = isManaged m st.pmm q := fun q => by
    rw [isManaged, isManaged, hm]
  have hframe : ∀ a, IsFrame m st a → IsFrame m { st with pmm := s } a := by
    rintro a ⟨q, ha, hq⟩
    exact ⟨q, ha, (hman q).trans hq⟩
  refine
    { lists := hl, once := fun q hq => ?_, inHand := fun a ha => hframe a (hf a ha)
      inCache := fun c a ha => hframe a (h.inCache c a ha)
      inPool := fun c a ha => hframe a (h.inPool c a ha), idle := h.idle
      pcp_le := h.pcp_le, zero_le := h.zero_le, nonnull := (hman 0).trans h.nonnull }
  rw [hman] at hq
  have honce := h.once q hq
  have := hp q hq
  simp only [places] at honce ⊢
  omega

/-! ### Where a frame is not -/

theorem free_refs (hq : isManaged m st.pmm q = true)
    (hb : st.pmm.bitmap q = false) : st.pmm.refcounts q = 0 := by
  have := h.once q hq
  rw [places, hb, Bool.not_false, Bool.toNat_true] at this
  omega

end

theorem hand_taken (h : Conserved m st (a :: hand)) :
    ∃ q, a = q * pageSize ∧ isManaged m st.pmm q = true ∧ st.pmm.bitmap q = true ∧
      st.pmm.refcounts q = 0 ∧ a ∉ hand := by
  obtain ⟨q, rfl, hq⟩ := h.inHand a mem_cons_self
  have honce := h.once q hq
  simp only [places, count_cons_self] at honce
  refine ⟨q, rfl, hq, ?_, ?_, fun hin => ?_⟩
  · cases hb : st.pmm.bitmap q with
    | true => rfl
    | false =>
      rw [hb, Bool.not_false, Bool.toNat_true] at honce
      omega
  · omega
  · have := count_pos_iff.mpr hin
    omega

end Conserved

variable {L : Blocks}

theorem FreeLists.setRefs (h : FreeLists m s L ∅) (refs : ℕ → ℕ) :
    FreeLists m { s with refcounts := refs } L ∅ :=
  h.elsewhere ⟨rfl, rfl, fun _ => ⟨rfl, rfl⟩, fun _ _ => rfl, fun _ _ => rfl,
    fun _ hq z => h.magic_ne hq z⟩

variable {k : ℕ} {r : Option ℕ × Pmm}

namespace Conserved

theorem count_mul {x y : ℕ} (h : x * pageSize = y * pageSize) : x = y :=
  Nat.eq_of_mul_eq_mul_right pageSize_pos h

variable {v : ℕ}

theorem setCount (h : Conserved m st hand) (hf : ∀ a ∈ hand', IsFrame m st a)
    (hq : hand'.count (q * pageSize) + min 1 v =
      hand.count (q * pageSize) + min 1 (st.pmm.refcounts q))
    (hother : ∀ a, a ≠ q * pageSize → hand'.count a = hand.count a) :
    Conserved m (st.setRef (q * pageSize) v) hand' := by
  obtain ⟨L, hL⟩ := h.lists
  refine h.replace ⟨L, hL.setRefs _⟩ rfl hf fun x hx => ?_
  rw [Nat.mul_div_cancel _ pageSize_pos]
  by_cases hxq : x = q
  · subst hxq
    simp only [update_self]
    omega
  · simp [update_of_ne hxq, hother _ fun e => hxq (count_mul e)]

theorem setRef (h : Conserved m st (a :: hand)) (hv : v ≠ 0) :
    Conserved m (st.setRef a v) hand := by
  obtain ⟨q, rfl, hq, hb, hr, hout⟩ := h.hand_taken
  refine h.setCount (fun a ha => h.inHand a (mem_cons_of_mem _ ha)) ?_ fun a ha => ?_
  · rw [count_cons_self]
    omega
  · rw [count_cons_of_ne ha.symm]

/-- A count that is not zero takes another value that is not zero. -/
theorem recount (h : Conserved m st hand) (hq : st.pmm.refcounts q ≠ 0) (hv : v ≠ 0) :
    Conserved m (st.setRef (q * pageSize) v) hand :=
  h.setCount h.inHand (by omega) fun _ _ => rfl

theorem dropRef (h : Conserved m st hand) (hq : isManaged m st.pmm q = true)
    (hr : st.pmm.refcounts q ≠ 0) :
    Conserved m (st.setRef (q * pageSize) 0) (q * pageSize :: hand) := by
  refine h.setCount (fun a ha => ?_) ?_ fun a ha => count_cons_of_ne ha.symm
  · rcases mem_cons.mp ha with rfl | ha
    · exact ⟨q, rfl, hq⟩
    · exact h.inHand a ha
  · rw [count_cons_self]
    omega

theorem freeInternal (h : Conserved m st (a :: hand)) (z : ℕ) :
    Conserved m { st with pmm := freeInternal m st.pmm z a 0 } hand ∧
      (Mm.freeInternal m st.pmm z a 0).managed = st.pmm.managed ∧
      (Mm.freeInternal m st.pmm z a 0).refcounts = st.pmm.refcounts := by
  obtain ⟨q, rfl, hq, hb, hr, hout⟩ := h.hand_taken
  obtain ⟨L, hL⟩ := h.lists
  have hblock : ∀ x ∈ frames q 0, isManaged m st.pmm x = true ∧ st.pmm.bitmap x = true := by
    rintro x ⟨h1, h2⟩
    obtain rfl : x = q := by omega
    exact ⟨hq, hb⟩
  obtain ⟨⟨L', hL', -⟩, hgiven, -⟩ := freeInternal_spec hL (by decide) (Nat.one_dvd q) hblock z
  refine ⟨h.replace ⟨L', hL'⟩ hgiven.managed (fun a ha => h.inHand a (mem_cons_of_mem _ ha))
    fun x hx => ?_, hgiven.managed, hgiven.refcounts⟩
  rw [hgiven.bitmap, hgiven.refcounts]
  by_cases hxq : x = q
  · subst hxq
    simp [hb]
  have hne : q * pageSize ≠ x * pageSize := fun e => hxq (count_mul e.symm)
  have hout : ¬(q ≤ x ∧ x < q + 2 ^ 0) := by omega
  simp only [hout, if_false, count_cons_of_ne hne]

/-- An allocation: the frames of a block leave their list and get a reference. -/
theorem allocates (h : Conserved m st hand)
    (hr : Allocates m st.pmm L k r) : Conserved m { st with pmm := r.2 } hand := by
  obtain ⟨L', hL', -⟩ := hr.lists
  cases hres : r.1 with
  | none =>
    obtain ⟨he, href⟩ := hr.failed hres
    exact h.replace ⟨L', hL'⟩ he.managed h.inHand fun x hx => by rw [he.bitmap, href]
  | some a =>
    obtain ⟨p, -, hh⟩ := hr.handed hres
    refine h.replace ⟨L', hL'⟩ hh.managed h.inHand fun x hx => ?_
    rw [hh.bitmap, hh.refcounts]
    by_cases hin : p ≤ x ∧ x < p + 2 ^ k
    · have hb := (hh.free x hin).2
      simp [hin, hb, h.free_refs hx hb]
    · simp [hin]

end Conserved

/-! ## Caches -/

/-- What an operation that drops no reference leaves alone. -/
structure Kept (st st' : Caches) : Prop where
  managed : st'.pmm.managed = st.pmm.managed
  init : st'.pcpInitialized = st.pcpInitialized
  refs : ∀ q, st.pmm.refcounts q ≠ 0 → st'.pmm.refcounts q = st.pmm.refcounts q

theorem Kept.refl (st : Caches) : Kept st st := ⟨rfl, rfl, fun _ _ => rfl⟩

theorem Kept.trans {st'' : Caches} (h : Kept st st') (h' : Kept st' st'') : Kept st st'' where
  managed := h'.managed.trans h.managed
  init := h'.init.trans h.init
  refs q hq := (h'.refs q (by rw [h.refs q hq]; exact hq)).trans (h.refs q hq)

theorem Kept.isManaged (h : Kept st st') (q : ℕ) :
    isManaged m st'.pmm q = Mm.isManaged m st.pmm q := by
  rw [Mm.isManaged, Mm.isManaged, h.managed]

/-- Frames move, and no reference is dropped. -/
abbrev Keeps (m : Machine) (st : Caches) (hand : List ℕ) (st' : Caches) : Prop :=
  Conserved m st' hand ∧ Kept st st'

/-- A frame that nobody has a reference to. -/
def Ownerless (m : Machine) (st : Caches) (a : ℕ) : Prop :=
  ∃ q, a = q * pageSize ∧ isManaged m st.pmm q = true ∧ st.pmm.refcounts q = 0

theorem Kept.ownerless (h : Kept st st') (ha : Ownerless m st' a) : Ownerless m st a := by
  obtain ⟨q, rfl, hq, hr⟩ := ha
  refine ⟨q, rfl, (h.isManaged q).symm.trans hq, ?_⟩
  by_contra hne
  exact hne ((h.refs q hne).symm.trans hr)

theorem Conserved.ownerless (h : Conserved m st (a :: hand)) : Ownerless m st a := by
  obtain ⟨q, ha, hq, -, hr, -⟩ := h.hand_taken
  exact ⟨q, ha, hq, hr⟩

theorem Kept.setRef (ha : Ownerless m st a) (v : ℕ) : Kept st (st.setRef a v) := by
  obtain ⟨q, rfl, -, hr⟩ := ha
  refine ⟨rfl, rfl, fun x hx => ?_⟩
  have hxq : x ≠ q := by
    rintro rfl
    exact hx hr
  rw [Caches.setRef, Nat.mul_div_cancel _ pageSize_pos]
  exact update_of_ne hxq _ _

/-- What an allocation of a block from a zone does to the frames. -/
structure Hands (m : Machine) (st : Caches) (hand : List ℕ) (k : ℕ) (r : Option ℕ × Pmm) :
    Prop where
  conserved : Conserved m { st with pmm := r.2 } hand
  kept : Kept st { st with pmm := r.2 }
  granted : ∀ {a}, r.1 = some a → ∃ p, a = p * pageSize ∧ ∀ q ∈ frames p k,
    isManaged m st.pmm q = true ∧ st.pmm.refcounts q = 0 ∧ r.2.refcounts q = 1

theorem Conserved.hands (h : Conserved m st hand)
    (hr : Allocates m st.pmm L k r) : Hands m st hand k r := by
  cases hres : r.1 with
  | none =>
    obtain ⟨he, href⟩ := hr.failed hres
    exact ⟨h.allocates hr, ⟨he.managed, rfl, fun q _ => congrFun href q⟩,
      fun e => absurd (hres.symm.trans e) (by simp)⟩
  | some a =>
    obtain ⟨p, ha, hh⟩ := hr.handed hres
    have hfree := fun q hq => h.free_refs (hh.free q hq).1 (hh.free q hq).2
    refine ⟨h.allocates hr, ⟨hh.managed, rfl, fun q hq => ?_⟩, fun e => ?_⟩
    · have hout : ¬(p ≤ q ∧ q < p + 2 ^ k) := fun hin => hq (hfree q hin)
      simp [hh.refcounts, hout]
    obtain rfl := Option.some.inj (hres.symm.trans e)
    refine ⟨p, ha, fun q hq => ⟨(hh.free q hq).1, hfree q hq, ?_⟩⟩
    rw [hh.refcounts]
    exact if_pos hq

theorem Hands.trans (h : Hands m st hand k (none, s)) (h' : Hands m { st with pmm := s } hand k r) :
    Hands m st hand k r where
  conserved := h'.conserved
  kept := h.kept.trans h'.kept
  granted e := by
    obtain ⟨p, ha, hp⟩ := h'.granted e
    refine ⟨p, ha, fun q hq => ?_⟩
    obtain ⟨hman, hzero, hone⟩ := hp q hq
    refine ⟨(h.kept.isManaged q).symm.trans hman, ?_, hone⟩
    by_contra hne
    exact hne ((h.kept.refs q hne).symm.trans hzero)

/-- A batch in the hands of the CPU: frames that had no owner in `st0`. -/
structure Batch (m : Machine) (st0 st : Caches) (hand : List ℕ) (r : Caches × List ℕ) : Prop where
  conserved : Conserved m r.1 (r.2 ++ hand)
  kept : Kept st0 r.1
  pcp : r.1.pcp = st.pcp
  zero : r.1.zero = st.zero
  ownerless : ∀ a ∈ r.2, Ownerless m st0 a
  length_le : r.2.length ≤ pcpBatch

variable {st0 : Caches}

theorem refill_spec (cache : List ℕ) (h : Conserved m st (cache ++ hand))
    (hc : ∀ a ∈ cache, Ownerless m st0 a) (hk : Kept st0 st) (z : ℕ)
    (hn : cache.length + n ≤ pcpBatch) : Batch m st0 st hand (refill m z n st cache) := by
  induction n generalizing st cache with
  | zero => exact ⟨h, hk, rfl, rfl, hc, hn⟩
  | succ n ih =>
    obtain ⟨L, hL⟩ := h.lists
    have hal := h.hands (allocInternal_spec hL z 0).1
    rw [refill, allocPageLocked_eq hL]
    generalize allocInternal m st.pmm z 0 = r at hal
    obtain ⟨res, s⟩ := r
    cases res with
    | none => exact ⟨hal.conserved, hk.trans hal.kept, rfl, rfl, hc, by dsimp only; omega⟩
    | some a =>
      obtain ⟨p, rfl, hp⟩ := hal.granted rfl
      obtain ⟨hman, hzero, hone⟩ := hp p (self_mem_frames p 0)
      have hfree : Ownerless m st (p * pageSize) := ⟨p, rfl, hman, hzero⟩
      have hdrop := hal.conserved.dropRef ((hal.kept.isManaged p).trans hman)
        (by rw [hone]; exact Nat.one_ne_zero)
      -- the reference that the allocation set is taken away again
      have hkept : Kept st (Caches.setRef { st with pmm := s } (p * pageSize) 0) := by
        refine ⟨hal.kept.managed, rfl, fun x hx => ?_⟩
        have hxp : x ≠ p := by
          rintro rfl
          exact hx hzero
        simp only [Caches.setRef, Nat.mul_div_cancel _ pageSize_pos, update_of_ne hxp]
        exact hal.kept.refs x hx
      obtain ⟨h1, h2, h3, h4, h5, h6⟩ := ih (p * pageSize :: cache) hdrop
        (fun a ha => (mem_cons.mp ha).elim (fun e => e ▸ hk.ownerless hfree) (hc a))
        (hk.trans hkept) (by rw [length_cons]; omega)
      exact ⟨h1, h2, h3, h4, h5, h6⟩

theorem refillFallback_spec (numa : Numa) (node : ℕ) (alts : List ℕ)
    (h : Conserved m st hand) (hk : Kept st0 st) :
    Batch m st0 st hand (refillFallback m numa node alts st) := by
  induction alts generalizing st with
  | nil => exact ⟨h, hk, rfl, rfl, fun a ha => absurd ha not_mem_nil, Nat.zero_le _⟩
  | cons alt rest ih =>
    rw [refillFallback]
    split
    · exact ih h hk
    have hr := refill_spec [] h (fun a ha => absurd ha not_mem_nil) hk
      (numa.getNode alt) (Nat.le_of_eq (Nat.zero_add _))
    generalize refill m _ _ st [] = r at hr
    obtain ⟨st1, cache⟩ := r
    cases cache with
    | nil =>
      obtain ⟨h1, h2, h3, h4, h5, h6⟩ := ih hr.conserved hr.kept
      exact ⟨h1, h2, h3.trans hr.pcp, h4.trans hr.zero, h5, h6⟩
    | cons a cache => exact hr

/-- What an allocation of one frame does. -/
structure Grants (m : Machine) (st : Caches) (hand : List ℕ) (r : Option ℕ × Caches) : Prop where
  conserved : Conserved m r.2 hand
  kept : Kept st r.2
  granted : ∀ {a}, r.1 = some a → Ownerless m st a ∧ r.2.pmm.refcounts (a / pageSize) = 1

theorem Grants.none (h : Conserved m st' hand) (hk : Kept st st') :
    Grants m st hand (none, st') := ⟨h, hk, fun e => absurd e (by simp)⟩

theorem Grants.some (h : Conserved m st' (a :: hand)) (hk : Kept st st')
    (ho : Ownerless m st a) : Grants m st hand (some a, st'.setRef a 1) where
  conserved := h.setRef Nat.one_ne_zero
  kept := hk.trans (Kept.setRef h.ownerless 1)
  granted e := by
    cases e
    exact ⟨ho, update_self _ _ _⟩

theorem ownCpu_lt (h : ownCpu cpu = some c) : c < maxCpus := by
  obtain ⟨-, hc⟩ := Option.filter_eq_some_iff.mp h
  exact of_decide_eq_true hc

theorem Kept.setPcp (st : Caches) (c : ℕ) (l : List ℕ) : Kept st (st.setPcp c l) :=
  ⟨rfl, rfl, fun _ _ => rfl⟩

theorem Kept.setZero (st : Caches) (c : ℕ) (l : List ℕ) : Kept st (st.setZero c l) :=
  ⟨rfl, rfl, fun _ _ => rfl⟩

/-- **A frame from the cache of the CPU** had no owner and gets one. -/
theorem pcpAllocPage_spec (numa : Numa) (cpu : Option ℕ) (h : Conserved m st hand) :
    Grants m st hand (pcpAllocPage m numa cpu st) := by
  rw [pcpAllocPage]
  split
  · exact .none h (.refl st)
  rename_i hi
  have hinit : st.pcpInitialized = true := Bool.not_eq_false _ ▸ hi
  split
  · exact .none h (.refl st)
  rename_i c hcpu
  have hc := ownCpu_lt hcpu
  split
  · rename_i a rest hpcp
    have hpop : Conserved m (st.setPcp c rest) (a :: hand) :=
      h.setPcp hc hinit (by
        have := h.pcp_le c
        rw [hpcp, length_cons] at this
        omega) (by rw [hpcp]; exact perm_middle)
    exact .some hpop (.setPcp st c rest) (Kept.ownerless (.setPcp st c rest) hpop.ownerless)
  rename_i hpcp
  -- the batch comes from the zone of the CPU or from one further away
  have hsome : ∀ {st1 a rest}, Batch m st st hand (st1, a :: rest) →
      Grants m st hand (some a, (st1.setPcp c rest).setRef a 1) := by
    intro st1 a rest hb
    have hput : Conserved m (st1.setPcp c rest) (a :: hand) := by
      have hle : rest.length + 1 ≤ 32 := hb.length_le
      refine hb.conserved.setPcp hc (hb.kept.init.trans hinit) (show rest.length ≤ 128 by omega) ?_
      rw [show st1.pcp = st.pcp from hb.pcp, hpcp]
      exact perm_middle
    exact .some hput (hb.kept.trans (.setPcp st1 c rest)) (hb.ownerless a mem_cons_self)
  have hr := refill_spec [] h (fun a ha => absurd ha not_mem_nil) (.refl st)
    (numa.getNode (numa.cpuToNode c)) (Nat.le_of_eq (Nat.zero_add _))
  dsimp only
  generalize refill m _ _ st [] = r at hr ⊢
  obtain ⟨st1, cache⟩ := r
  cases cache with
  | nil =>
    have hb := refillFallback_spec numa (numa.cpuToNode c)
      (numa.fallbackOrder (numa.getNode (numa.cpuToNode c))) hr.conserved hr.kept
    dsimp only
    generalize refillFallback m _ _ _ st1 = r at hb ⊢
    obtain ⟨st2, cache⟩ := r
    cases cache with
    | nil => exact .none hb.conserved hb.kept
    | cons a rest =>
      obtain ⟨h1, h2, h3, h4, h5, h6⟩ := hb
      exact hsome ⟨h1, h2, h3.trans hr.pcp, h4.trans hr.zero, h5, h6⟩
  | cons a rest => exact hsome hr

/-- Frames in hand go back to their zones, and no count changes. -/
theorem giveBack_spec (numa : Numa) (h : Conserved m st (l ++ hand)) :
    Keeps m st hand (giveBack m numa st l) := by
  induction l generalizing st with
  | nil => exact ⟨h, .refl st⟩
  | cons a l ih =>
    obtain ⟨hcons, hman, href⟩ := h.freeInternal (numa.zoneOf a)
    have hk : Kept st { st with pmm := freeInternal m st.pmm (numa.zoneOf a) a 0 } :=
      ⟨hman, rfl, fun q _ => congrFun href q⟩
    obtain ⟨h1, h2⟩ := ih hcons
    exact ⟨h1, hk.trans h2⟩

theorem Conserved.ne_zero (h : Conserved m st (a :: hand)) : a ≠ 0 := by
  obtain ⟨q, rfl, hq, -⟩ := h.hand_taken
  intro e
  rcases Nat.mul_eq_zero.mp e with rfl | hp
  · rw [h.nonnull] at hq
    exact Bool.false_ne_true hq
  · exact absurd hp (by decide)

/-- **A frame goes into the cache of the CPU**; if that is full, a batch makes room. -/
theorem pcpFreePage_spec (numa : Numa) (h : Conserved m st (a :: hand))
    (hi : st.pcpInitialized = true) (hcpu : ownCpu cpu = some c) :
    (pcpFreePage m numa cpu st a).1 = true ∧
      Conserved m (pcpFreePage m numa cpu st a).2 hand ∧
      Kept st (pcpFreePage m numa cpu st a).2 := by
  have hc := ownCpu_lt hcpu
  rw [pcpFreePage, if_neg (by simp [hi, h.ne_zero]), hcpu]
  dsimp only
  split
  · rename_i hlt
    refine ⟨rfl, h.setPcp hc hi hlt ?_, .setPcp _ _ _⟩
    exact perm_middle.symm
  have hput : Conserved m (st.setPcp c (a :: (st.pcp c).drop pcpBatch))
      ((st.pcp c).take pcpBatch ++ hand) := by
    have hle : (a :: (st.pcp c).drop pcpBatch).length ≤ pcpCapacity := by
      have := h.pcp_le c
      rw [length_cons, length_drop]
      simp only [pcpCapacity, pcpBatch] at this ⊢
      omega
    refine h.setPcp hc hi hle (perm_iff_count.mpr fun x => ?_)
    have := congrArg (count x) (take_append_drop pcpBatch (st.pcp c))
    simp only [count_append, count_cons] at this ⊢
    omega
  obtain ⟨h1, h2⟩ := giveBack_spec numa hput
  exact ⟨rfl, h1, (Kept.setPcp _ _ _).trans h2⟩

theorem drain_spec (numa : Numa) (h : Conserved m st hand) (hc : c < maxCpus)
    (hi : st.pcpInitialized = true) :
    Keeps m st hand (drain m numa c st) := by
  have htake : Conserved m (st.setPcp c []) ((st.pcp c).reverse ++ hand) :=
    h.setPcp hc hi (Nat.zero_le _) ((reverse_perm _).append_right hand)
  obtain ⟨h1, h2⟩ := giveBack_spec numa htake
  exact ⟨h1, (Kept.setPcp _ _ _).trans h2⟩

theorem pcpDrainLocal_spec (numa : Numa) (cpu : Option ℕ) (h : Conserved m st hand) :
    Keeps m st hand (pcpDrainLocal m numa cpu st) := by
  rw [pcpDrainLocal]
  split
  · exact ⟨h, .refl st⟩
  rename_i hi
  split
  · exact ⟨h, .refl st⟩
  · rename_i c hcpu
    exact drain_spec numa h (ownCpu_lt hcpu) (Bool.not_eq_false _ ▸ hi)

/-! ## Pools -/

theorem allocZeroedPage_spec (cpu : Option ℕ) (h : Conserved m st hand) :
    Grants m st hand (allocZeroedPage cpu st) := by
  rw [allocZeroedPage]
  split
  · exact .none h (.refl st)
  rename_i c hcpu
  split
  swap
  · exact .none h (.refl st)
  rename_i a rest hzero
  have hi : st.pcpInitialized = true := by
    cases hi : st.pcpInitialized with
    | true => rfl
    | false => rw [(h.idle hi c).2] at hzero; simp at hzero
  have hpop : Conserved m (st.setZero c rest) (a :: hand) :=
    h.setZero (ownCpu_lt hcpu) hi (by
      have := h.zero_le c
      rw [hzero, length_cons] at this
      omega) (by rw [hzero]; exact perm_middle)
  exact .some hpop (.setZero st c rest) (Kept.ownerless (.setZero st c rest) hpop.ownerless)

theorem putBack_spec (numa : Numa) (h : Conserved m st (l ++ hand))
    (hi : st.pcpInitialized = true) (hcpu : ownCpu cpu = some c) :
    Keeps m st hand (putBack m numa cpu st l) := by
  induction l generalizing st with
  | nil => exact ⟨h, .refl st⟩
  | cons a l ih =>
    obtain ⟨-, hcons, hk⟩ := pcpFreePage_spec numa h hi hcpu
    obtain ⟨h1, h2⟩ := ih hcons (hk.init.trans hi)
    exact ⟨h1, hk.trans h2⟩

/-- The frames that were collected are different and belong to the CPU. -/
theorem collect_spec (numa : Numa) (cpu : Option ℕ) (h : Conserved m st hand) (n : ℕ) :
    Conserved m (collect m numa cpu n st).2 hand ∧ Kept st (collect m numa cpu n st).2 ∧
      (collect m numa cpu n st).1.Nodup ∧ ∀ a ∈ (collect m numa cpu n st).1, Ownerless m st a ∧
        (collect m numa cpu n st).2.pmm.refcounts (a / pageSize) = 1 := by
  induction n generalizing st with
  | zero => exact ⟨h, .refl st, nodup_nil, fun a ha => absurd ha not_mem_nil⟩
  | succ n ih =>
    have hg := pcpAllocPage_spec numa cpu h
    rw [collect]
    generalize pcpAllocPage m numa cpu st = r at hg
    obtain ⟨res, st1⟩ := r
    cases res with
    | none => exact ⟨hg.conserved, hg.kept, nodup_nil, fun a ha => absurd ha not_mem_nil⟩
    | some a =>
      obtain ⟨ho, hone⟩ := hg.granted rfl
      obtain ⟨h1, h2, h3, h4⟩ := ih hg.conserved
      refine ⟨h1, hg.kept.trans h2, nodup_cons.mpr ⟨fun hin => ?_, h3⟩, fun b hb => ?_⟩
      · -- the first frame has an owner when the others are taken
        obtain ⟨⟨q, rfl, -, hr⟩, -⟩ := h4 a hin
        rw [Nat.mul_div_cancel _ pageSize_pos, hr] at hone
        exact absurd hone (by decide)
      · rcases mem_cons.mp hb with rfl | hb
        · exact ⟨ho, (h2.refs _ (by rw [hone]; exact Nat.one_ne_zero)).trans hone⟩
        · exact ⟨hg.kept.ownerless (h4 b hb).1, (h4 b hb).2⟩

/-- A frame is zeroed: its reference goes, and it is in hand. -/
theorem zeroFrame_spec (h : Conserved m st hand) (hq : isManaged m st.pmm q = true)
    (hr : st.pmm.refcounts q ≠ 0) :
    Conserved m (zeroFrame st (q * pageSize)) (q * pageSize :: hand) := by
  have hdrop := h.dropRef hq hr
  obtain ⟨x, hx, -, hbit, -⟩ := hdrop.hand_taken
  obtain rfl := Conserved.count_mul hx
  obtain ⟨L, hL⟩ := hdrop.lists
  -- the words that a free block uses are those of a frame that is taken
  have he : Elsewhere m (st.setRef (q * pageSize) 0).pmm (zeroFrame st (q * pageSize)).pmm := by
    simp only [Caches.setRef, zeroFrame, Nat.mul_div_cancel _ pageSize_pos] at hL hbit ⊢
    refine ⟨rfl, rfl, fun _ => ⟨rfl, rfl⟩, fun _ _ => rfl, fun y hy => ?_, fun y hy z => ?_⟩
    · have hyq : y ≠ q := by
        rintro rfl
        exact Bool.false_ne_true (hy.symm.trans hbit)
      simp [words, hyq]
    · by_cases hyq : y = q
      · simpa [hyq] using (m.magic_ne_zero z).symm
      · simpa [hyq] using hL.magic_ne hy z
  exact hdrop.replace ⟨L, hL.elsewhere he⟩ rfl hdrop.inHand fun y _ => rfl

theorem zeroFrames_spec (h : Conserved m st hand) (hnd : l.Nodup)
    (hl : ∀ a ∈ l, ∃ q, a = q * pageSize ∧ isManaged m st.pmm q = true ∧ st.pmm.refcounts q ≠ 0) :
    Conserved m (l.foldl zeroFrame st) (l ++ hand) ∧
      (l.foldl zeroFrame st).pmm.managed = st.pmm.managed ∧
      (l.foldl zeroFrame st).pcpInitialized = st.pcpInitialized ∧
      (∀ q, q * pageSize ∉ l → (l.foldl zeroFrame st).pmm.refcounts q = st.pmm.refcounts q) := by
  induction l generalizing st hand with
  | nil => exact ⟨h, rfl, rfl, fun _ _ => rfl⟩
  | cons a l ih =>
    obtain ⟨q, rfl, hq, hr⟩ := hl a mem_cons_self
    obtain ⟨hout, hnd⟩ := nodup_cons.mp hnd
    have hother : ∀ x ≠ q, (zeroFrame st (q * pageSize)).pmm.refcounts x =
        st.pmm.refcounts x := fun x hx => by
      simp [zeroFrame, Nat.mul_div_cancel _ pageSize_pos, update_of_ne hx]
    obtain ⟨h1, h2, h3, h4⟩ := ih (zeroFrame_spec h hq hr) hnd fun b hb => by
      obtain ⟨x, rfl, hx, hxr⟩ := hl b (mem_cons_of_mem _ hb)
      have hxq : x ≠ q := by
        rintro rfl
        exact hout hb
      exact ⟨x, rfl, hx, by rw [hother x hxq]; exact hxr⟩
    refine ⟨h1.perm perm_middle.symm, h2, h3, fun x hx => ?_⟩
    rw [foldl_cons, h4 x fun hin => hx (mem_cons_of_mem _ hin)]
    refine hother x ?_
    rintro rfl
    exact hx mem_cons_self

theorem collect_idle (m : Machine) (numa : Numa) (cpu : Option ℕ) (n : ℕ)
    (hi : st.pcpInitialized = false) : (collect m numa cpu n st).1 = [] := by
  cases n with
  | zero => rfl
  | succ n => rw [collect, pcpAllocPage, if_pos hi]

theorem refillRounds_spec (numa : Numa) (h : Conserved m st hand) (hcpu : ownCpu cpu = some c)
    (n maxPages : ℕ) : Keeps m st hand (refillRounds m numa cpu c n maxPages st) := by
  induction n generalizing st maxPages with
  | zero => exact ⟨h, .refl st⟩
  | succ n ih =>
    rw [refillRounds]
    split
    · exact ⟨h, .refl st⟩
    have hcol := collect_spec numa cpu h (min maxPages 32)
    generalize hres : collect m numa cpu _ st = r at hcol
    obtain ⟨got, st1⟩ := r
    obtain ⟨hcons, hkept, hnd, hgot⟩ := hcol
    dsimp only at hcons hkept hnd hgot ⊢
    split
    · exact ⟨hcons, hkept⟩
    rename_i hne
    have hframe : ∀ a ∈ got, ∃ q, a = q * pageSize ∧ isManaged m st1.pmm q = true ∧
        st1.pmm.refcounts q ≠ 0 := fun a ha => by
      obtain ⟨⟨q, rfl, hq, -⟩, hone⟩ := hgot a ha
      rw [Nat.mul_div_cancel _ pageSize_pos] at hone
      exact ⟨q, rfl, (hkept.isManaged q).trans hq, by rw [hone]; exact Nat.one_ne_zero⟩
    obtain ⟨hz, hman, hini, hrefs⟩ := zeroFrames_spec hcons hnd hframe
    -- the frames that lost their reference had none before the round
    have hk2 : Kept st (got.foldl zeroFrame st1) := by
      refine ⟨hman.trans hkept.managed, hini.trans hkept.init, fun q hq => ?_⟩
      rw [hrefs q fun hin => ?_]
      · exact hkept.refs q hq
      obtain ⟨⟨x, hx, -, hr⟩, -⟩ := hgot _ hin
      rw [Conserved.count_mul hx] at hq
      exact hq hr
    have hi : st.pcpInitialized = true := by
      cases hi : st.pcpInitialized with
      | true => rfl
      | false =>
        have := collect_idle m numa cpu (min maxPages 32) hi
        rw [hres] at this
        exact absurd this hne
    have hi2 := hk2.init.trans hi
    generalize got.foldl zeroFrame st1 = st2 at hz hk2 hi2 ⊢
    have hfit : min got.length (zeroPoolCap - (st2.zero c).length) + (st2.zero c).length ≤
        zeroPoolCap := by
      have := hz.zero_le c
      omega
    generalize min got.length (zeroPoolCap - (st2.zero c).length) = t at hfit
    have hput : Conserved m (st2.setZero c ((got.take t).reverse ++ st2.zero c))
        (got.drop t ++ hand) := by
      refine hz.setZero (ownCpu_lt hcpu) hi2 ?_ (perm_iff_count.mpr fun x => ?_)
      · rw [length_append, length_reverse, length_take]
        omega
      have := congrArg (count x) (take_append_drop t got)
      simp only [count_append, count_reverse] at this ⊢
      omega
    obtain ⟨h1, h2⟩ := putBack_spec numa hput hi2 hcpu
    have hk3 := (hk2.trans (.setZero _ _ _)).trans h2
    split
    · exact ⟨h1, hk3⟩
    · obtain ⟨h3, h4⟩ := ih h1 (maxPages - got.length)
      exact ⟨h3, hk3.trans h4⟩

theorem zeroPoolRefill_spec (numa : Numa) (cpu : Option ℕ) (h : Conserved m st hand)
    (maxPages : ℕ) : Keeps m st hand (zeroPoolRefill m numa cpu maxPages st) := by
  rw [zeroPoolRefill]
  split
  · exact ⟨h, .refl st⟩
  · rename_i c hcpu
    exact refillRounds_spec numa h hcpu _ _

theorem drainPool_spec (numa : Numa) {d : ℕ} (h : Conserved m st hand) (hc : c < maxCpus)
    (hcpu : ownCpu cpu = some d) :
    Keeps m st hand (drainPool m numa cpu st c) := by
  rw [drainPool, if_pos (h.zero_le c)]
  cases hi : st.pcpInitialized with
  | true =>
    have htake : Conserved m (st.setZero c []) ((st.zero c).reverse ++ hand) :=
      h.setZero hc hi (Nat.zero_le _) ((reverse_perm _).append_right hand)
    obtain ⟨h1, h2⟩ := putBack_spec numa htake hi hcpu
    exact ⟨h1, (Kept.setZero _ _ _).trans h2⟩
  | false =>
    -- nothing was ever cached
    have hzero := (h.idle hi c).2
    have : st.setZero c [] = st := by
      rw [Caches.setZero, ← hzero, update_eq_self]
    rw [this, hzero]
    exact ⟨h, .refl st⟩

end AvoryOS.Mm
