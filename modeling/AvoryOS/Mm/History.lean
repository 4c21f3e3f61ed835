import AvoryOS.Mm.Buddy

/-!
# Histories of the zones

Boot sets the zones up, seeds them with the memory it was given, and from then on blocks are
taken and given back.  As long as only frames that are taken are given back, the lists hold
exactly the free frames, in aligned blocks that do not overlap and cannot be joined.

Whether a block was given back before is left to the callers: the check in `freeInternal`
recognises a block only by its header, which tells nothing about the frames inside a larger
block.
-/

namespace AvoryOS.Mm

open Circular

variable {m : Machine} {s s' : Pmm} {L : Blocks} {z k p q : ℕ}

/-! ## Boot -/

/-- `buddy_zone_init` for every zone, and the bitmaps as `pmm_init` first fills them. -/
def boot (s : Pmm) : Pmm :=
  { s with
    bitmap := fun _ => true
    managed := fun _ => false
    node := fun x => match x with
      | .head z k => ⟨.head z k, .head z k⟩
      | x => s.node x
    zone := fun _ => ⟨fun _ => 0, 0, 0⟩ }

/-- A block of `pmm_init`: its frames become managed and free, and `buddy_zone_seed_block`
links it as it is. -/
def seedBlock (m : Machine) (s : Pmm) (z phys order : ℕ) : Pmm :=
  let pfn := phys / pageSize
  let s := { s with
    managed := markRange m true s.managed pfn (2 ^ order)
    bitmap := markRange m false s.bitmap pfn (2 ^ order)
    refcounts := fun q => if pfn ≤ q ∧ q < pfn + 2 ^ order then 0 else s.refcounts q }
  publish (link m s z pfn order) z

/-- The tags are new: no frame holds one from before. -/
def Untagged (m : Machine) (s : Pmm) : Prop := ∀ p z, s.magic p ≠ m.magic z

theorem boot_lists (h : Untagged m s) : FreeLists m (boot s) (fun _ _ => []) ∅ where
  loop z k _ := ⟨⟨rfl, rfl⟩, List.nodup_singleton _⟩
  order_lt hp := absurd hp List.not_mem_nil
  aligned hp := absurd hp List.not_mem_nil
  header hp := absurd hp List.not_mem_nil
  linked {z p} e := absurd e (h p z)
  free hp := absurd hp List.not_mem_nil
  apart hp := absurd hp List.not_mem_nil
  covers hq := absurd hq.symm Bool.false_ne_true
  pending hq := absurd hq (Set.notMem_empty _)
  count _ _ _ := rfl
  total _ := by simp [boot, Blocks.pages]

theorem boot_published (s : Pmm) : Published (boot s) := fun _ => rfl

/-- What `pmm_init` seeds: an aligned block of frames that no one manages yet. -/
structure Seedable (m : Machine) (s : Pmm) (p k : ℕ) : Prop where
  order_lt : k < maxOrder
  aligned : 2 ^ k ∣ p
  fresh : ∀ q ∈ frames p k, (m.lowest ≤ q ∧ q < m.highest) ∧ s.managed q = false

theorem FreeLists.taken_of_unmanaged (h : FreeLists m s L ∅) (hq : s.managed q = false) :
    s.bitmap q = true := by
  cases hb : s.bitmap q with
  | true => rfl
  | false =>
    obtain ⟨z, k, p, hp, hin⟩ := (h.covers hb).resolve_left (Set.notMem_empty q)
    have := (h.free hp q hin).1
    rw [isManaged, hq, Bool.and_false] at this
    exact absurd this Bool.false_ne_true

/-- What seeding a block does to the frames. -/
structure Seeds (s s' : Pmm) (p k : ℕ) : Prop where
  managed : s'.managed = fun q => if p ≤ q ∧ q < p + 2 ^ k then true else s.managed q
  bitmap : s'.bitmap = fun q => if p ≤ q ∧ q < p + 2 ^ k then false else s.bitmap q
  refcounts : s'.refcounts = fun q => if p ≤ q ∧ q < p + 2 ^ k then 0 else s.refcounts q
  published : Published s → Published s'

theorem seedBlock_spec (h : FreeLists m s L ∅) (hs : Seedable m s p k) (z : ℕ) :
    FreeLists m (seedBlock m s z (p * pageSize) k) (L.add z k p) ∅ ∧
      Seeds s (seedBlock m s z (p * pageSize) k) p k := by
  have hin := fun q hq => (hs.fresh q hq).1
  have hout : ∀ {z' k' x}, x ∈ L z' k' → ∀ q ∈ frames x k', ¬(p ≤ q ∧ q < p + 2 ^ k) :=
    fun hx q hq hp => by
      have hb := (h.free hx q hq).2
      rw [h.taken_of_unmanaged (hs.fresh q hp).2] at hb
      exact Bool.false_ne_true hb.symm
  -- the frames are on their way into a list
  have hnew : FreeLists m
      { s with
        managed := markRange m true s.managed p (2 ^ k)
        bitmap := markRange m false s.bitmap p (2 ^ k)
        refcounts := fun q => if p ≤ q ∧ q < p + 2 ^ k then 0 else s.refcounts q }
      L (∅ ∪ frames p k) := by
    rw [FreeLists.markRange_block _ _ hin, FreeLists.markRange_block _ _ hin, Set.empty_union]
    refine { h with
      free := fun hx q hq => ?_, covers := fun {q} hq => ?_, pending := fun {q} hq => ?_ }
    · simpa [isManaged, hout hx q hq] using h.free hx q hq
    · by_cases hp : p ≤ q ∧ q < p + 2 ^ k
      · exact .inl hp
      · simp only [hp] at hq
        exact .inr ((h.covers hq).resolve_left (Set.notMem_empty q))
    · refine ⟨?_, if_pos hq, fun hx hqx => hout hx q hqx hq⟩
      have hp : p ≤ q ∧ q < p + 2 ^ k := hq
      simp [isManaged, hp, hin q hq]
  have hlink := hnew.link_spec hs.order_lt hs.aligned (fun q hq => absurd hq (Set.notMem_empty q)) z
  have hpos : 0 < pageSize := by decide
  have hbit : markRange m false s.bitmap p (2 ^ k) p = false :=
    (hnew.pending (.inr (self_mem_frames p k))).2.1
  rw [seedBlock, Nat.mul_div_cancel _ hpos]
  have hq := hnew.link_quiet hs.order_lt hbit z
  exact ⟨hlink.elsewhere (publish_elsewhere hlink z),
    hq.managed.trans (FreeLists.markRange_block _ _ hin),
    hq.bitmap.trans (FreeLists.markRange_block _ _ hin), hq.refcounts,
    fun hpub => publish_published hpub hq.zone⟩

/-! ## Histories -/

/-- The states of a history in which blocks are given back as `G` allows.  Other code changes
reference counts and the contents of frames that are taken. -/
inductive Reach (m : Machine) (G : Pmm → ℕ → ℕ → Prop) : Pmm → Prop
  | boot {s : Pmm} (fresh : Untagged m s) : Reach m G (boot s)
  | seed {s : Pmm} (z p k : ℕ) (hs : Reach m G s) (ok : Seedable m s p k)
      (alone : nodeValid m s z (.page (p ^^^ 2 ^ k)) k = false) :
      Reach m G (seedBlock m s z (p * pageSize) k)
  | alloc {s : Pmm} (z k : ℕ) (hs : Reach m G s) : Reach m G (allocInternal m s z k).2
  | allocPage {s : Pmm} (z : ℕ) (hs : Reach m G s) : Reach m G (allocPageLocked m s z).2
  | allocRange {s : Pmm} (z count lo hi : ℕ) (hs : Reach m G s) :
      Reach m G (allocPagesRange m s z count lo hi).2
  | free {s : Pmm} (z phys k : ℕ) (hs : Reach m G s) (hk : k < maxOrder) (ok : G s phys k) :
      Reach m G (freeInternal m s z phys k)
  | other {s s' : Pmm} (hs : Reach m G s) (he : Elsewhere m s s') (hz : s'.zone = s.zone) :
      Reach m G s'

/-- Every frame of the block is managed and taken. -/
def Taken (m : Machine) (s : Pmm) (phys order : ℕ) : Prop :=
  ∀ q ∈ frames (phys / pageSize) order, isManaged m s q = true ∧ s.bitmap q = true

/-- The free lists are as they should be. -/
def Sound (m : Machine) (s : Pmm) : Prop := ∃ L, FreeLists m s L ∅ ∧ L.Maximal ∧ Published s

theorem Sound.allocates {r : Option ℕ × Pmm} (hL : L.Maximal) (hs : Published s)
    (hr : Allocates m s L k r) : Sound m r.2 := by
  obtain ⟨L', hfl, hmax⟩ := hr.lists
  exact ⟨L', hfl, hmax hL, hr.published hs⟩

theorem Reach.sound (h : Reach m (Taken m) s) : Sound m s := by
  induction h with
  | boot fresh =>
    exact ⟨_, boot_lists fresh, fun _ _ _ _ hp => absurd hp List.not_mem_nil, boot_published _⟩
  | seed z p k hs ok alone ih =>
    obtain ⟨L, hfl, hmax, hpub⟩ := ih
    obtain ⟨hnew, hseeds⟩ := seedBlock_spec hfl ok z
    refine ⟨_, hnew, hmax.add fun _ hb => ?_, hseeds.published hpub⟩
    rw [hfl.nodeValid_iff.mpr hb] at alone
    exact Bool.false_ne_true alone.symm
  | alloc z k hs ih =>
    obtain ⟨L, hfl, hmax, hpub⟩ := ih
    exact .allocates hmax hpub (allocInternal_spec hfl z k).1
  | allocPage z hs ih =>
    obtain ⟨L, hfl, hmax, hpub⟩ := ih
    rw [allocPageLocked_eq hfl]
    exact .allocates hmax hpub (allocInternal_spec hfl z 0).1
  | allocRange z count lo hi hs ih =>
    obtain ⟨L, hfl, hmax, hpub⟩ := ih
    exact .allocates hmax hpub (allocPagesRange_spec hfl z count lo hi)
  | free z phys k hs hk ok ih =>
    obtain ⟨L, hfl, hmax, hpub⟩ := ih
    by_cases hmis : phys % (2 ^ k * pageSize) ≠ 0
    · -- a block that is not aligned is refused
      rw [freeInternal, if_pos hmis]
      exact ⟨L, hfl, hmax, hpub⟩
    obtain ⟨n, rfl⟩ := Nat.dvd_of_mod_eq_zero (not_not.mp hmis)
    rw [Nat.mul_right_comm] at ok ⊢
    rw [Taken, Nat.mul_div_cancel _ (by decide : 0 < pageSize)] at ok
    obtain ⟨⟨L', hfl', hmax'⟩, -, hpub'⟩ := freeInternal_spec hfl hk (Nat.dvd_mul_right _ n) ok z
    exact ⟨L', hfl', hmax' hmax, hpub' hpub⟩
  | other hs he hz ih =>
    obtain ⟨L, hfl, hmax, hpub⟩ := ih
    exact ⟨L, hfl.elsewhere he, hmax, fun z => by rw [hz]; exact hpub z⟩

/-- **The zones of a history.**  If only frames that are taken are given back, the free blocks
are aligned, do not overlap, are exactly the free frames, cannot be joined and are counted
correctly, and an allocation of an order hands out a free block of that order and touches no
other frame. -/
theorem zone_invariant (h : Reach m (Taken m) s) :
    (∃ L, FreeLists m s L ∅ ∧ L.Maximal ∧ Published s) ∧
      (∀ z k a s', allocInternal m s z k = (some a, s') →
        ∃ p, a = p * pageSize ∧ Handed m s s' p k) ∧
      ∀ z count lo hi a s', allocPagesRange m s z count lo hi = (some a, s') →
        ∃ p, a = p * pageSize ∧ Handed m s s' p (getOrder count) := by
  obtain ⟨L, hfl, hmax, hpub⟩ := h.sound
  refine ⟨⟨L, hfl, hmax, hpub⟩, fun z k a s' e => ?_, fun z count lo hi a s' e => ?_⟩
  · have := (allocInternal_spec hfl z k).1.handed (a := a)
    rw [e] at this
    exact this rfl
  · have := (allocPagesRange_spec hfl z count lo hi).handed (a := a)
    rw [e] at this
    exact this rfl

/-! ## Four frames -/

namespace FourFrames

def machine : Machine where
  lowest := 0
  highest := 4
  magic z := 2 * z + 1
  magic_ne_zero z := Nat.succ_ne_zero _
  magic_injective := fun a b h => by
    have : 2 * a + 1 = 2 * b + 1 := h
    omega

def blank : Pmm where
  bitmap _ := false
  managed _ := false
  refcounts _ := 0
  node _ := ⟨.wild, .wild⟩
  order _ := 0
  magic _ := 0
  zone _ := ⟨fun _ => 0, 0, 0⟩

/-- Zone `0` has the frames `2` and `3` as one block. -/
def seeded : Pmm := seedBlock machine (boot blank) 0 (2 * pageSize) 1

def held : Pmm := (allocInternal machine seeded 0 1).2

theorem seeded_reach (G : Pmm → ℕ → ℕ → Prop) : Reach machine G seeded := by
  refine .seed 0 2 1 (.boot fun p z => ?_) ⟨by decide, by decide, fun q hq => ?_⟩
    (by decide +kernel)
  · exact (machine.magic_ne_zero z).symm
  · obtain ⟨h1, h2⟩ := hq
    exact ⟨⟨Nat.zero_le _, h2⟩, rfl⟩

end FourFrames

open FourFrames

/-- The block is given back, and then its second frame once more. -/
theorem double_free_overlaps :
    ∃ m s, Reach m (fun _ _ _ => True) s ∧ ¬(∃ L, FreeLists m s L ∅ ∧ L.Maximal ∧ Published s) := by
  let s := freeInternal machine (freeInternal machine held 0 (2 * pageSize) 1) 0 (3 * pageSize) 0
  refine ⟨machine, s, ?_, ?_⟩
  · exact .free 0 _ 0 (.free 0 _ 1 (.alloc 0 1 (seeded_reach _)) (by decide) trivial)
      (by decide) trivial
  rintro ⟨L, hfl, -, -⟩
  have hpair : nodeValid machine s 0 (.page 2) 1 = true := by decide +kernel
  have hpage : nodeValid machine s 0 (.page 3) 0 = true := by decide +kernel
  have := hfl.apart (hfl.nodeValid_iff.mp hpair) (hfl.nodeValid_iff.mp hpage) 3
    (by decide) (by decide)
  exact absurd this.2.1 (by decide)

theorem zone_invariant_seeded : (∃ L, FreeLists machine seeded L ∅ ∧ L.Maximal ∧ Published seeded) ∧
      ∃ p, 2 * pageSize = p * pageSize ∧ Handed machine seeded held p 1 := by
  obtain ⟨hlists, halloc, -⟩ := zone_invariant (seeded_reach (Taken machine))
  refine ⟨hlists, halloc 0 1 (2 * pageSize) held (Prod.ext ?_ rfl)⟩
  decide +kernel

/-! ## Failed allocations -/

theorem eq_of_mem_frames {b : ℕ} (hp : 2 ^ k ∣ p) (hb : 2 ^ k ∣ b) (h : q ∈ frames p k)
    (h' : q ∈ frames b k) : p = b := by
  have hdiv : ∀ x, q ∈ frames (2 ^ k * x) k → q / 2 ^ k = x := fun x h =>
    Nat.div_eq_of_lt_le (by rw [Nat.mul_comm]; exact h.1)
      (by rw [Nat.succ_mul, Nat.mul_comm]; exact h.2)
  obtain ⟨x, rfl⟩ := hp
  obtain ⟨y, rfl⟩ := hb
  rw [← hdiv x h, hdiv y h']

/-- Blocks that cannot be joined do not cover a larger one. -/
theorem Blocks.Maximal.not_covered (hL : L.Maximal) (ha : ∀ {c b}, b ∈ L z c → 2 ^ c ∣ b)
    (hp : 2 ^ k ∣ p) (hk : k < maxOrder) :
    ∃ q ∈ frames p k, ∀ c b, b ∈ L z c → c < k → q ∉ frames b c := by
  induction k generalizing p with
  | zero => exact ⟨p, self_mem_frames p 0, fun _ _ _ hc => absurd hc (Nat.not_lt_zero _)⟩
  | succ k ih =>
    have hlow : 2 ^ k ∣ p := (pow_dvd_pow 2 (Nat.le_succ k)).trans hp
    -- one half is not linked, and smaller blocks do not cover it
    obtain ⟨p', hp', hsub, hout⟩ : ∃ p', 2 ^ k ∣ p' ∧ frames p' k ⊆ frames p (k + 1) ∧
        p' ∉ L z k := by
      rw [frames_succ]
      by_cases hin : p ∈ L z k
      · refine ⟨p + 2 ^ k, Nat.dvd_add hlow dvd_rfl, Set.subset_union_right, ?_⟩
        rw [← (buddy_of_dvd hp).1]
        exact hL z k p hk hin
      · exact ⟨p, hlow, Set.subset_union_left, hin⟩
    obtain ⟨q, hq, hno⟩ := ih hp' (by omega)
    refine ⟨q, hsub hq, fun c b hb hc hqb => ?_⟩
    obtain hc | rfl := Nat.lt_succ_iff_lt_or_eq.mp hc
    · exact hno c b hb hc hqb
    · exact hout (eq_of_mem_frames hp' (ha hb) hq hqb ▸ hb)

/-- **An allocation fails only for want of a free block**: every aligned block of the order has a
frame that is in no free block of the zone. -/
theorem alloc_fails_fragmented (h : Reach m (Taken m) s) (hk : k < maxOrder)
    (hnone : (allocInternal m s z k).1 = none) (hp : 2 ^ k ∣ p) :
    ∃ q ∈ frames p k, ∀ b c, nodeValid m s z (.page b) c = true → q ∉ frames b c := by
  obtain ⟨L, hfl, hmax, -⟩ := h.sound
  obtain ⟨q, hq, hno⟩ := hmax.not_covered (z := z) (fun hb => hfl.aligned hb) hp hk
  refine ⟨q, hq, fun b c hb => ?_⟩
  have hmem := hfl.nodeValid_iff.mp hb
  refine hno c b hmem (Nat.lt_of_not_le fun hc => ?_)
  rw [(allocInternal_spec hfl z k).2 hnone hk c hc] at hmem
  cases hmem

theorem alloc_fails_fragmented_held :
    ∃ q ∈ frames 2 1, ∀ b c, nodeValid machine held 0 (.page b) c = true → q ∉ frames b c :=
  alloc_fails_fragmented (.alloc 0 1 (seeded_reach _)) (by decide) (by decide +kernel) (by decide)

end AvoryOS.Mm
