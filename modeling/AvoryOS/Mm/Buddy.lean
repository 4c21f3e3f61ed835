import AvoryOS.Mm.FreeLists

/-!
# The buddy allocator

An allocation takes the first block of the smallest order that has one and halves it until it
has the size asked for; a block that comes back is joined with its other half as long as that
one is free.

## Main definitions

* `freeInternal`, `allocInternal`, `allocPageLocked`, `allocPagesRange` — the operations.
* `Handed` — what an allocation does to the frames.
* `freeInternal_spec`, `allocInternal_spec`, `allocPagesRange_spec` — they keep the lists.
-/

namespace AvoryOS.Mm

open Circular Option Nat FreeLists List

variable (m : Machine)

/-! ## Giving back -/

/-- The loop of `buddy_free_internal`; `n` orders remain below `MAX_ORDER - 1`. -/
def coalesce (z : ℕ) : ℕ → ℕ → ℕ → Pmm → ℕ × ℕ × Pmm
  | 0, pfn, order, s => (pfn, order, s)
  | n + 1, pfn, order, s =>
    let buddy := pfn ^^^ 2 ^ order
    if buddy < m.lowest ∨ m.highest ≤ buddy ∨ isManaged m s buddy = false ∨
        s.bitmap buddy = true then (pfn, order, s)
    else if nodeValid m s z (.page buddy) order then
      coalesce z n (min pfn buddy) (order + 1) (unlink s z buddy)
    else (pfn, order, s)

/-- `buddy_free_internal`. -/
def freeInternal (s : Pmm) (z phys order : ℕ) : Pmm :=
  if phys % (2 ^ order * pageSize) ≠ 0 then s
  else
    let pfn := phys / pageSize
    let s := { s with bitmap := markRange m false s.bitmap pfn (2 ^ order) }
    let (pfn, order, s) := coalesce m z (maxOrder - 1 - order) pfn order s
    -- a header that is still valid here is that of a block freed twice
    publish (if nodeValid m s z (.page pfn) order then s else link m s z pfn order) z

/-! ## Taking -/

/-- The block is marked, its frames get their first reference and its tag goes. -/
def handOut (s : Pmm) (z pfn order : ℕ) : Pmm :=
  publish
    { s with
      bitmap := markRange m true s.bitmap pfn (2 ^ order)
      refcounts := fun q => if pfn ≤ q ∧ q < pfn + 2 ^ order then 1 else s.refcounts q
      magic := Function.update s.magic pfn 0 } z

/-- The smallest order from `order` on whose list is not empty; `n` orders remain. -/
def firstOrder (z : ℕ) : ℕ → ℕ → Pmm → Option ℕ × Pmm
  | 0, _, s => (none, s)
  | n + 1, order, s =>
    match nonempty m z order m.pageCount s with
    | (true, s) => (some order, s)
    | (false, s) => firstOrder z n (order + 1) s

/-- The upper halves go back until `order` is reached, `n` orders down. -/
def split (z pfn order : ℕ) : ℕ → Pmm → Pmm
  | 0, s => s
  | n + 1, s => split z pfn order n (link m s z (pfn + 2 ^ (order + n)) (order + n))

/-- `buddy_alloc_internal`. -/
def allocInternal (s : Pmm) (z order : ℕ) : Option ℕ × Pmm :=
  if maxOrder ≤ order then (none, s)
  else
    match firstOrder m z (maxOrder - order) order s with
    | (none, s) => (none, publish s z)
    | (some cur, s) =>
      match (s.node (.head z cur)).next with
      | .page pfn =>
        (some (pfn * pageSize),
          handOut m (split m z pfn order (cur - order) (unlink s z pfn)) z pfn order)
      | _ => (none, s)

/-- `buddy_list_pop`. -/
def listPop (z order : ℕ) (s : Pmm) : Option ℕ × Pmm :=
  match nonempty m z order m.pageCount s with
  | (false, s) => (none, s)
  | (true, s) =>
    match (s.node (.head z order)).next with
    | .page pfn => (some pfn, unlink s z pfn)
    | _ => (none, s)

/-- The loop of `buddy_alloc_page_locked` over the orders. -/
def popFirst (z : ℕ) : ℕ → ℕ → Pmm → Option (ℕ × ℕ) × Pmm
  | 0, _, s => (none, s)
  | n + 1, order, s =>
    match listPop m z order s with
    | (some pfn, s) => (some (pfn, order), s)
    | (none, s) => popFirst z n (order + 1) s

/-- `buddy_alloc_page_locked`. -/
def allocPageLocked (s : Pmm) (z : ℕ) : Option ℕ × Pmm :=
  match popFirst m z maxOrder 0 s with
  | (none, s) => (none, publish s z)
  | (some (pfn, cur), s) =>
    (some (pfn * pageSize), handOut m (split m z pfn 0 cur s) z pfn 0)

/-! ## Taking within bounds -/

/-- The loop of `pmm_get_order`. -/
def orderFrom (count : ℕ) : ℕ → ℕ → ℕ → ℕ
  | 0, _, order => order
  | n + 1, size, order => if size < count then orderFrom count n (size * 2) (order + 1) else order

/-- `pmm_get_order`. -/
def getOrder (count : ℕ) : ℕ := orderFrom count maxOrder 1 0

/-- The first aligned address of a block that leaves room below the bound, in 64 bits. -/
def fit (order cur pfn minPhys maxPhys : ℕ) : Option ℕ :=
  let phys := pfn * pageSize
  let blockEnd := phys + 2 ^ cur * pageSize
  let size := 2 ^ order * pageSize
  let candidate := (max phys minPhys + size - 1) % 2 ^ 64 / size * size
  let allowedEnd := min blockEnd maxPhys
  if candidate < allowedEnd ∧ size ≤ allowedEnd - candidate then some candidate else none

/-- The first block of a list that has room; the list has at most `n` nodes. -/
def findFit (s : Pmm) (order cur minPhys maxPhys : ℕ) : ℕ → Ptr → Option (ℕ × ℕ)
  | 0, _ => none
  | n + 1, .page pfn =>
    match fit order cur pfn minPhys maxPhys with
    | some target => some (pfn, target)
    | none => findFit s order cur minPhys maxPhys n (s.node (.page pfn)).next
  | _ + 1, _ => none

/-- Halving towards the target: the half without it goes back. -/
def splitTo (z order target : ℕ) : ℕ → ℕ → Pmm → ℕ × Pmm
  | 0, pfn, s => (pfn, s)
  | n + 1, pfn, s =>
    let half := 2 ^ (order + n)
    if pfn + half ≤ target then
      splitTo z order target n (pfn + half) (link m s z pfn (order + n))
    else splitTo z order target n pfn (link m s z (pfn + half) (order + n))

/-- The loop of `buddy_alloc_pages_range` over the orders. -/
def rangeFrom (z order minPhys maxPhys : ℕ) : ℕ → ℕ → Pmm → Option ℕ × Pmm
  | 0, _, s => (none, publish s z)
  | n + 1, cur, s =>
    let s := validate m z cur s
    match findFit s order cur minPhys maxPhys m.pageCount (s.node (.head z cur)).next with
    | none => rangeFrom z order minPhys maxPhys n (cur + 1) s
    | some (pfn, target) =>
      let (pfn, s) := splitTo m z order (target / pageSize) (cur - order) pfn (unlink s z pfn)
      (some (pfn * pageSize), handOut m s z pfn order)

/-- `buddy_alloc_pages_range`. -/
def allocPagesRange (s : Pmm) (z count minPhys maxPhys : ℕ) : Option ℕ × Pmm :=
  if count = 0 then (none, s)
  else
    let order := getOrder count
    if maxOrder ≤ order then (none, s)
    else rangeFrom m z order minPhys maxPhys (maxOrder - order) order s

/-! ## Halves -/

variable {m} {s s' : Pmm} {L : Blocks} {z k n p q : ℕ}

theorem xor_one (n : ℕ) : n ^^^ 1 = if n % 2 = 0 then n + 1 else n - 1 := by
  have hmod : (n ^^^ 1) % 2 = (n + 1) % 2 := xor_mod_two_eq
  have hdiv : (n ^^^ 1) / 2 = n / 2 := by rw [xor_div_two]; simp
  split <;> omega

theorem buddy_cases (h : 2 ^ k ∣ p) : (p ^^^ 2 ^ k = p + 2 ^ k ∧ 2 ^ (k + 1) ∣ p) ∨
      (p = (p ^^^ 2 ^ k) + 2 ^ k ∧ 2 ^ (k + 1) ∣ p ^^^ 2 ^ k) := by
  obtain ⟨n, rfl⟩ := h
  have hxor : 2 ^ k * n ^^^ 2 ^ k = 2 ^ k * (n ^^^ 1) := by
    have := @shiftLeft_xor_distrib k n 1
    rw [shiftLeft_eq, shiftLeft_eq, shiftLeft_eq, one_mul] at this
    rw [mul_comm, ← this, mul_comm]
  rw [hxor, xor_one]
  have hdvd : ∀ j, j % 2 = 0 → 2 ^ (k + 1) ∣ 2 ^ k * j := fun j hj =>
    pow_succ 2 k ▸ mul_dvd_mul_left _ (dvd_of_mod_eq_zero hj)
  by_cases hn : n % 2 = 0
  · rw [if_pos hn]
    exact .inl ⟨mul_succ _ _, hdvd n hn⟩
  rw [if_neg hn]
  refine .inr ⟨?_, hdvd _ (by omega)⟩
  rw [← mul_succ]
  congr 1
  omega

/-- No two blocks of an order are the halves of one that could be linked. -/
def Blocks.Maximal (L : Blocks) : Prop :=
  ∀ z k p, k + 1 < maxOrder → p ∈ L z k → p ^^^ 2 ^ k ∉ L z k

theorem Blocks.Maximal.drop (h : L.Maximal) (hnd : (L z k).Nodup) : (L.drop z k p).Maximal := by
  intro z' k' x hk' hx hx'
  exact h z' k' x hk' ((mem_drop hnd).mp hx).1 ((mem_drop hnd).mp hx').1

theorem Blocks.Maximal.add (h : L.Maximal) (hb : k + 1 < maxOrder → p ^^^ 2 ^ k ∉ L z k) :
    (L.add z k p).Maximal := by
  intro z' k' x hk' hx hx'
  rcases mem_add.mp hx with hx | ⟨rfl, rfl, rfl⟩
  · rcases mem_add.mp hx' with hx' | ⟨rfl, rfl, hxp⟩
    · exact h z' k' x hk' hx hx'
    · refine hb hk' ?_
      rwa [← hxp, Nat.xor_assoc, Nat.xor_self, xor_zero]
  rcases mem_add.mp hx' with hx' | ⟨-, -, hxp⟩
  · exact hb hk' hx'
  have : x ^^^ (x ^^^ 2 ^ k') = x ^^^ x := congrArg (x ^^^ ·) hxp
  rw [← Nat.xor_assoc, Nat.xor_self, zero_xor] at this
  exact absurd this (Nat.two_pow_pos k').ne'

theorem buddy_of_dvd (h : 2 ^ (k + 1) ∣ p) :
    p ^^^ 2 ^ k = p + 2 ^ k ∧ (p + 2 ^ k) ^^^ 2 ^ k = p := by
  have hb : p ^^^ 2 ^ k = p + 2 ^ k := by
    rcases buddy_cases ((pow_dvd_pow 2 (le_succ k)).trans h) with ⟨hb, -⟩ | ⟨hb, h'⟩
    · exact hb
    -- both halves would be multiples of the larger size
    have : 2 ^ (k + 1) ∣ 2 ^ k := (Nat.dvd_add_right h').mp (hb ▸ h)
    have := le_of_dvd (Nat.two_pow_pos k) this
    omega
  exact ⟨hb, by rw [← hb, Nat.xor_assoc, Nat.xor_self, xor_zero]⟩

theorem frames_buddy (h : 2 ^ k ∣ p) :
    frames p k ∪ frames (p ^^^ 2 ^ k) k = frames (min p (p ^^^ 2 ^ k)) (k + 1) ∧
      2 ^ (k + 1) ∣ min p (p ^^^ 2 ^ k) := by
  rcases buddy_cases h with ⟨hb, hal⟩ | ⟨hb, hal⟩
  · rw [hb, min_eq_left (le_add_right _ _)]
    refine ⟨Set.ext fun q => ?_, hal⟩
    simp only [Set.mem_union, Set.mem_Ico]
    omega
  generalize p ^^^ 2 ^ k = b at hb hal
  subst hb
  rw [min_eq_right (le_add_right _ _)]
  refine ⟨Set.ext fun q => ?_, hal⟩
  simp only [Set.mem_union, Set.mem_Ico]
  omega

theorem frames_succ (p k : ℕ) : frames p (k + 1) = frames p k ∪ frames (p + 2 ^ k) k := by
  refine Set.ext fun q => ?_
  simp only [Set.mem_union, Set.mem_Ico]
  omega

/-! ## Giving back keeps the lists -/

/-- The block that joining ends with: its other half is not free. -/
def Joined (m : Machine) (z : ℕ) (s : Pmm) (L : Blocks) (r : ℕ × ℕ × Pmm) : Prop :=
  ∃ L', FreeLists m r.2.2 L' (frames r.1 r.2.1) ∧ 2 ^ r.2.1 ∣ r.1 ∧ r.2.1 < maxOrder ∧
    (r.2.1 + 1 < maxOrder → r.1 ^^^ 2 ^ r.2.1 ∉ L' z r.2.1) ∧ Quiet z s r.2.2 ∧
    (L.Maximal → L'.Maximal)

theorem coalesce_spec (h : FreeLists m s L (frames p k)) (hal : 2 ^ k ∣ p)
    (hn : k + n + 1 = maxOrder) (z : ℕ) : Joined m z s L (coalesce m z n p k s) := by
  induction n generalizing p k s L with
  | zero =>
    exact ⟨L, h, hal, show k < maxOrder by omega, fun hk => absurd hk (show ¬k + 1 < _ by omega),
      .refl z s, id⟩
  | succ n ih =>
    have stop (hb : p ^^^ 2 ^ k ∉ L z k) : Joined m z s L (p, k, s) :=
      ⟨L, h, hal, show k < maxOrder by omega, fun _ => hb, .refl z s, id⟩
    rw [coalesce]
    split
    · rename_i hno
      refine stop fun hb => ?_
      obtain ⟨hman, hbit⟩ := h.self_free hb
      have hin := inRange_of_managed hman
      rw [hman, hbit] at hno
      simp only [Bool.true_eq_false, Bool.false_eq_true, or_false] at hno
      omega
    split
    · rename_i hv
      have hb := h.nodeValid_iff.mp hv
      obtain ⟨hunion, hal'⟩ := frames_buddy hal
      have hun := h.unlink_spec hb
      rw [hunion] at hun
      obtain ⟨L', hfl, ha, hk, hmax, hq, hm⟩ := ih hun hal' (by omega)
      exact ⟨L', hfl, ha, hk, hmax, (h.unlink_quiet hb).trans hq,
        fun hL => hm (hL.drop (h.nodup z k))⟩
    · rename_i hv
      exact stop (mt h.nodeValid_iff.mpr hv)

def Published (s : Pmm) : Prop := ∀ z, (s.zone z).freePages = (s.zone z).freePagesInLists

theorem publish_published (hs : Published s) (hz : ∀ z' ≠ z, s'.zone z' = s.zone z') :
    Published (publish s' z) := by
  intro z'
  by_cases h : z' = z
  · simp [publish, h]
  · simpa [publish, h, hz z' h] using hs z'

theorem publish_elsewhere (h : FreeLists m s L ∅) (z : ℕ) : Elsewhere m s (publish s z) where
  bitmap := rfl
  managed := rfl
  counters z' := by
    by_cases hz : z' = z
    · simp [publish, hz]
    · simp [publish, hz]
  heads _ _ := rfl
  words _ _ := rfl
  unforged q hq z' := h.magic_ne hq z'

/-- What giving a block back does to the frames. -/
structure Given (m : Machine) (s s' : Pmm) (p k : ℕ) : Prop where
  bitmap : s'.bitmap = fun q => if p ≤ q ∧ q < p + 2 ^ k then false else s.bitmap q
  managed : s'.managed = s.managed
  refcounts : s'.refcounts = s.refcounts
  words : ∀ q, s'.bitmap q = true → words s' q = words s q

/-- **Giving back** a block of frames that are all taken keeps the lists. -/
theorem freeInternal_spec (h : FreeLists m s L ∅) (hk : k < maxOrder) (hal : 2 ^ k ∣ p)
    (hblock : ∀ q ∈ frames p k, isManaged m s q = true ∧ s.bitmap q = true) (z : ℕ) :
    (∃ L', FreeLists m (freeInternal m s z (p * pageSize) k) L' ∅ ∧ (L.Maximal → L'.Maximal)) ∧
      Given m s (freeInternal m s z (p * pageSize) k) p k ∧
      (Published s → Published (freeInternal m s z (p * pageSize) k)) := by
  have hbit := markRange_block false s.bitmap
    fun q hq => inRange_of_managed (hblock q hq).1
  have hmis : ¬(p * pageSize % (2 ^ k * pageSize) ≠ 0) := by
    rw [not_not]
    exact mod_eq_zero_of_dvd (mul_dvd_mul_right hal pageSize)
  have hpos : 0 < pageSize := by decide
  obtain ⟨L', hfl, ha, hk', hmax, hq, hm⟩ :=
    coalesce_spec (n := maxOrder - 1 - k) (h.given hblock) hal (by omega) z
  generalize heq : coalesce m z _ p k _ = r at hfl ha hk' hmax hq
  obtain ⟨p', k', s'⟩ := r
  have hp' := (hfl.pending (self_mem_frames p' k')).2
  have hv : ¬nodeValid m s' z (.page p') k' = true := fun hv =>
    hp'.2 (hfl.nodeValid_iff.mp hv) (self_mem_frames p' k')
  have hresult : freeInternal m s z (p * pageSize) k = publish (link m s' z p' k') z := by
    rw [freeInternal, if_neg hmis, Nat.mul_div_cancel _ hpos]
    simp [heq, if_neg hv]
  rw [← Set.empty_union (frames p' k')] at hfl
  have hlink := hfl.link_spec hk' ha (fun q hq => absurd hq (Set.notMem_empty q)) z
  have hquiet := hq.trans (hfl.link_quiet hk' hp'.1 z)
  rw [hresult]
  refine ⟨⟨_, hlink.elsewhere (publish_elsewhere hlink z), fun hL => (hm hL).add hmax⟩, ?_, ?_⟩
  · exact
      { bitmap := hquiet.bitmap.trans hbit
        managed := hquiet.managed
        refcounts := hquiet.refcounts
        words := fun q hq' => hquiet.words q (hquiet.bitmap ▸ hq') }
  · exact fun hs => publish_published hs hquiet.zone

/-! ## Taking keeps the lists -/

/-- What an allocation of a block does to the frames. -/
structure Handed (m : Machine) (s s' : Pmm) (p k : ℕ) : Prop where
  aligned : 2 ^ k ∣ p
  free : ∀ q ∈ frames p k, isManaged m s q = true ∧ s.bitmap q = false
  bitmap : s'.bitmap = fun q => if p ≤ q ∧ q < p + 2 ^ k then true else s.bitmap q
  refcounts : s'.refcounts = fun q => if p ≤ q ∧ q < p + 2 ^ k then 1 else s.refcounts q
  managed : s'.managed = s.managed
  words : ∀ q, s.bitmap q = true → words s' q = words s q

theorem splitTo_spec {t : ℕ} (h : FreeLists m s L (frames p (k + n))) (hal : 2 ^ (k + n) ∣ p)
    (hk : k + n < maxOrder) (z : ℕ) :
    ∃ p' s' L', splitTo m z k t n p s = (p', s') ∧ FreeLists m s' L' (frames p' k) ∧ 2 ^ k ∣ p' ∧
      Quiet z s s' ∧ (L.Maximal → L'.Maximal) := by
  induction n generalizing p s L with
  | zero => exact ⟨p, s, L, rfl, h, hal, .refl z s, id⟩
  | succ n ih =>
    rw [← add_assoc] at h hal
    have hlow : 2 ^ (k + n) ∣ p := (pow_dvd_pow 2 (le_succ _)).trans hal
    have hhigh : 2 ^ (k + n) ∣ p + 2 ^ (k + n) := Nat.dvd_add hlow dvd_rfl
    have hfree := fun q hq => (h.pending (q := q) hq).2.1
    have hbuddy := buddy_of_dvd hal
    have hout : ∀ q ∈ frames p (k + n + 1), q ∉ L z (k + n) := fun q hq hin =>
      (h.pending hq).2.2 hin (self_mem_frames _ _)
    have hp : p ∈ frames p (k + n + 1) := self_mem_frames _ _
    have hp' : p + 2 ^ (k + n) ∈ frames p (k + n + 1) := ⟨by omega, by
      omega⟩
    rw [splitTo]
    split
    · -- the lower half goes back
      have hl := h
      rw [frames_succ, Set.union_comm] at hl
      have hnew := hl.link_spec (by omega) hlow (fun q hq => by
        simp only [Set.mem_Ico] at hq ⊢; omega) z
      obtain ⟨p', s', L', heq, hfl, ha, hq, hm⟩ := ih hnew hhigh (by omega)
      exact ⟨p', s', L', heq, hfl, ha, (h.link_quiet (by omega) (hfree p hp) z).trans hq,
        fun hL => hm (hL.add fun _ => by rw [hbuddy.1]; exact hout _ hp')⟩
    · have hl := h
      rw [frames_succ] at hl
      have hnew := hl.link_spec (by omega) hhigh (fun q hq => by
        simp only [Set.mem_Ico] at hq ⊢; omega) z
      obtain ⟨p', s', L', heq, hfl, ha, hq, hm⟩ := ih hnew hlow (by omega)
      exact ⟨p', s', L', heq, hfl, ha, (h.link_quiet (by omega) (hfree _ hp') z).trans hq,
        fun hL => hm (hL.add fun _ => by rw [hbuddy.2]; exact hout _ hp)⟩

theorem split_eq (m : Machine) (z p k n : ℕ) (s : Pmm) :
    splitTo m z k 0 n p s = (p, split m z p k n s) := by
  induction n generalizing s with
  | zero => rfl
  | succ n ih =>
    have := Nat.two_pow_pos (k + n)
    rw [splitTo, if_neg (by omega), ih, split]

theorem handOut_spec (h : FreeLists m s L (frames p k)) (z : ℕ) :
    FreeLists m (handOut m s z p k) L ∅ := by
  have htaken := h.taken fun q => if p ≤ q ∧ q < p + 2 ^ k then 1 else s.refcounts q
  have hmark := markRange_block true s.bitmap fun q hq =>
    inRange_of_managed (h.pending hq).1
  refine htaken.elsewhere
    { bitmap := rfl, managed := rfl, counters := fun z' => ?_, heads := fun _ _ => rfl
      words := fun q hq => ?_, unforged := fun q hq z' => ?_ }
  · by_cases hz : z' = z
    · simp [handOut, publish, hz]
    · simp [handOut, publish, hz]
  · have hqp : q ≠ p := by
      rintro rfl
      rw [hmark] at hq
      simp at hq
    simp [words, handOut, publish, hqp]
  · by_cases hqp : q = p
    · simpa [handOut, publish, hqp] using (m.magic_ne_zero z').symm
    · simpa [handOut, publish, hqp] using htaken.magic_ne hq z'

/-- A linked block is unlinked, halved towards a target and handed out. -/
theorem carve_spec (h : FreeLists m s L ∅) {c t : ℕ} (hp : p ∈ L z c) (hkc : k ≤ c) :
    ∃ p' s', splitTo m z k t (c - k) p (unlink s z p) = (p', s') ∧
      (∃ L', FreeLists m (handOut m s' z p' k) L' ∅ ∧ (L.Maximal → L'.Maximal)) ∧
      Handed m s (handOut m s' z p' k) p' k ∧
      (Published s → Published (handOut m s' z p' k)) := by
  obtain ⟨n, rfl⟩ := Nat.exists_eq_add_of_le hkc
  have hun := h.unlink_spec hp
  rw [Set.empty_union] at hun
  obtain ⟨p', s', L', heq, hfl, hal, hq, hm⟩ :=
    splitTo_spec hun (h.aligned hp) (h.order_lt hp) z
  have hquiet := (h.unlink_quiet hp).trans hq
  have hpend : ∀ q ∈ frames p' k, isManaged m s q = true ∧ s.bitmap q = false := fun q hin => by
    rw [← hquiet.isManaged, ← hquiet.bitmap]
    exact ⟨(hfl.pending hin).1, (hfl.pending hin).2.1⟩
  have hmark := markRange_block true s'.bitmap fun q hq =>
    inRange_of_managed (hfl.pending hq).1
  refine ⟨p', s', by rw [Nat.add_sub_cancel_left]; exact heq,
    ⟨L', handOut_spec hfl z, fun hL => hm (hL.drop (h.nodup z _))⟩, ?_, ?_⟩
  swap
  · exact fun hs => publish_published hs hquiet.zone
  refine ⟨hal, hpend, ?_, ?_, hquiet.managed, fun q hq => ?_⟩
  · exact hmark.trans (by rw [hquiet.bitmap])
  · simp [handOut, publish, hquiet.refcounts]
  have hqp : q ≠ p' := by
    rintro rfl
    rw [(hpend q (self_mem_frames _ _)).2] at hq
    exact Bool.false_ne_true hq
  rw [← hquiet.words q hq]
  simp [words, handOut, publish, hqp]

/-- The state after an allocation, and what it returned. -/
structure Allocates (m : Machine) (s : Pmm) (L : Blocks) (k : ℕ) (r : Option ℕ × Pmm) : Prop where
  lists : ∃ L', FreeLists m r.2 L' ∅ ∧ (L.Maximal → L'.Maximal)
  handed : ∀ {a}, r.1 = some a → ∃ p, a = p * pageSize ∧ Handed m s r.2 p k
  failed : r.1 = none → Elsewhere m s r.2 ∧ r.2.refcounts = s.refcounts
  published : Published s → Published r.2

section

variable (h : FreeLists m s L ∅)
include h

theorem Elsewhere.refl : Elsewhere m s s :=
  ⟨rfl, rfl, fun _ => ⟨rfl, rfl⟩, fun _ _ => rfl, fun _ _ => rfl, fun _ hq z => h.magic_ne hq z⟩

theorem Allocates.none_publish (z : ℕ) : Allocates m s L k (none, publish s z) where
  lists := ⟨L, h.elsewhere (publish_elsewhere h z), id⟩
  handed e := absurd e (by simp)
  failed _ := ⟨publish_elsewhere h z, rfl⟩
  published hs := publish_published hs fun _ _ => rfl

theorem Allocates.none : Allocates m s L k (none, s) where
  lists := ⟨L, h, id⟩
  handed e := absurd e (by simp)
  failed _ := ⟨.refl h, rfl⟩
  published := id

theorem firstOrder_eq (hn : k + n = maxOrder) (z : ℕ) :
    ∃ r, firstOrder m z n k s = (r, s) ∧ (r = none → ∀ c, k ≤ c → L z c = []) ∧
      ∀ {c}, r = some c → k ≤ c ∧ c < maxOrder ∧ L z c ≠ [] := by
  induction n generalizing k with
  | zero =>
    refine ⟨none, rfl, fun _ c hc => ?_, fun e => absurd e (by simp)⟩
    cases hl : L z c with
    | nil => rfl
    | cons p ps =>
      have := h.order_lt (hl ▸ mem_cons_self : p ∈ L z c)
      omega
  | succ n ih =>
    rw [firstOrder, h.nonempty_eq (by omega) z]
    by_cases hl : L z k = []
    · obtain ⟨r, heq, hnone, hsome⟩ := ih (k := k + 1) (by omega)
      refine ⟨r, by simpa [hl] using heq, fun hr c hc => ?_, fun hr => ?_⟩
      · rcases eq_or_lt_of_le hc with rfl | hc
        · exact hl
        · exact hnone hr c hc
      · obtain ⟨hk, hc⟩ := hsome hr
        exact ⟨by omega, hc⟩
    · refine ⟨some k, by simp [hl], fun e => absurd e (by simp), fun e => ?_⟩
      cases e
      exact ⟨le_rfl, by omega, hl⟩

/-- **An allocation** hands out a free block of its order, and fails only if the lists from that
order on are empty. -/
theorem allocInternal_spec (z k : ℕ) : Allocates m s L k (allocInternal m s z k) ∧
      ((allocInternal m s z k).1 = none → k < maxOrder → ∀ c, k ≤ c → L z c = []) := by
  rw [allocInternal]
  split
  · exact ⟨.none h, fun _ hk => by omega⟩
  obtain ⟨r, heq, hnone, hsome⟩ := firstOrder_eq (k := k) (n := maxOrder - k) h (by omega) z
  rw [heq]
  cases r with
  | none => exact ⟨.none_publish h z, fun _ _ => hnone rfl⟩
  | some c =>
    obtain ⟨hkc, hc, hl⟩ := hsome rfl
    obtain ⟨p, ps, hps⟩ := exists_cons_of_ne_nil hl
    have hfirst : (s.node (.head z c)).next = .page p := by
      have hloop := h.loop z c hc
      rw [hps] at hloop
      exact hloop.next_head
    obtain ⟨p', s', hsplit, hlists, hhanded, hpub⟩ :=
      carve_spec h (hps ▸ mem_cons_self : p ∈ L z c) hkc
    rw [split_eq] at hsplit
    cases hsplit
    simp only [hfirst]
    exact ⟨⟨hlists, fun e => ⟨p, (some.inj e).symm, hhanded⟩,
      fun e => absurd e (by simp), hpub⟩, fun e => absurd e (by simp)⟩

theorem popFirst_eq (hn : k + n = maxOrder) (z : ℕ) : popFirst m z n k s =
      match firstOrder m z n k s with
      | (none, s) => (none, s)
      | (some c, s) =>
        match (s.node (.head z c)).next with
        | .page p => (some (p, c), unlink s z p)
        | _ => (none, s) := by
  induction n generalizing k with
  | zero => rfl
  | succ n ih =>
    rw [popFirst, listPop, firstOrder, h.nonempty_eq (by omega) z]
    by_cases hl : L z k = []
    · simpa [hl] using ih (by omega)
    obtain ⟨p, ps, hps⟩ := exists_cons_of_ne_nil hl
    have hloop := h.loop z k (by omega)
    rw [hps] at hloop
    simp [hps, hloop.next_head]

/-- The allocation of one frame for the caches is the allocation of order `0`. -/
theorem allocPageLocked_eq (z : ℕ) : allocPageLocked m s z = allocInternal m s z 0 := by
  rw [allocPageLocked, popFirst_eq h (by omega), allocInternal, if_neg (by decide)]
  obtain ⟨r, heq, -, hsome⟩ := firstOrder_eq h (zero_add _) z
  rw [Nat.sub_zero, heq]
  cases r with
  | none => rfl
  | some c =>
    obtain ⟨-, hc, hl⟩ := hsome rfl
    obtain ⟨p, ps, hps⟩ := exists_cons_of_ne_nil hl
    have hloop := h.loop z c hc
    rw [hps] at hloop
    simp [hloop.next_head]

theorem findFit_mem (hc : q < maxOrder) {lo hi t : ℕ} {x : Ptr}
    (hx : x ∈ Ptr.head z q :: (L z q).map .page)
    (hf : findFit s k q lo hi n x = some (p, t)) : p ∈ L z q := by
  induction n generalizing x with
  | zero => exact absurd hf (by simp [findFit])
  | succ n ih =>
    rcases mem_cons.mp hx with rfl | hx
    · exact absurd hf (by simp [findFit])
    obtain ⟨b, hb, rfl⟩ := mem_map.mp hx
    rw [findFit] at hf
    split at hf
    · obtain ⟨rfl, -⟩ := Prod.mk.inj (some.inj hf)
      exact hb
    · exact ih ((h.loop z q hc).neighbours (mem_map_of_mem hb)).1.1 hf

theorem rangeFrom_spec {c lo hi : ℕ} (hkc : k ≤ c)
    (hn : c + n = maxOrder) (z : ℕ) : Allocates m s L k (rangeFrom m z k lo hi n c s) := by
  induction n generalizing c with
  | zero => exact .none_publish h z
  | succ n ih =>
    rw [rangeFrom, h.validate_eq (by omega) z]
    split
    · exact ih (by omega) (by omega)
    rename_i p t hf
    have hnext : (s.node (.head z c)).next ∈ Ptr.head z c :: (L z c).map .page := by
      have := (h.loop z c (by omega)).seg.next_mem
      simp only [mem_append, mem_cons, not_mem_nil, or_false] at this ⊢
      exact this.symm
    obtain ⟨p', s', hsplit, hlists, hhanded, hpub⟩ :=
      carve_spec h (findFit_mem h (by omega) hnext hf) hkc
    rw [hsplit]
    exact ⟨hlists, fun e => ⟨p', (some.inj e).symm, hhanded⟩, fun e => absurd e (by simp), hpub⟩

/-- **An allocation within bounds** hands out a free block of the order of its size. -/
theorem allocPagesRange_spec (z count lo hi : ℕ) :
    Allocates m s L (getOrder count) (allocPagesRange m s z count lo hi) := by
  rw [allocPagesRange]
  split
  · exact .none h
  dsimp only
  split
  · exact .none h
  · exact rangeFrom_spec h le_rfl (by omega) z

end

end AvoryOS.Mm
