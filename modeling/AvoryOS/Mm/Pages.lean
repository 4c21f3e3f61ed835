import AvoryOS.Mm.Init

/-!
# Histories of the frames

From boot on, frames are taken from the zones, the caches and the pools, shared and released by
any CPU.  Every frame stays in exactly one place; a frame is handed out only while nobody has it,
and it is somebody's until its last reference goes.

`pcpFreePage` trusts its callers: it puts into the cache whatever it is given.  So it is not an
operation of its own here, but a part of those that have made sure that nobody has the frame.
-/

namespace AvoryOS.Mm

open Function List

variable {m : Machine} {numa : Numa} {st st' : Caches} {hand : List ℕ} {a c q z n : ℕ}
  {cpu : Option ℕ}

/-! ## References -/

/-- The frames to which the last reference may have gone satisfy `drop`. -/
structure Releases (st st' : Caches) (drop : ℕ → Prop) : Prop where
  managed : st'.pmm.managed = st.pmm.managed
  init : st'.pcpInitialized = st.pcpInitialized
  last : ∀ q, st.pmm.refcounts q ≠ 0 → st'.pmm.refcounts q = 0 → drop q ∧ st.pmm.refcounts q = 1

theorem Kept.releases (h : Kept st st') (drop : ℕ → Prop) : Releases st st' drop :=
  ⟨h.managed, h.init, fun q hq hz => absurd ((h.refs q hq).symm.trans hz) hq⟩

theorem countable_frame (h : countable m st a = true) :
    ∃ q, a = q * pageSize ∧ isManaged m st.pmm q = true := by
  simp only [countable, Bool.and_eq_true, decide_eq_true_eq] at h
  obtain ⟨⟨-, -, hal⟩, hman⟩ := h
  exact ⟨a / pageSize, (Nat.div_mul_cancel (Nat.dvd_of_mod_eq_zero hal)).symm, hman⟩

theorem incref_spec (h : Conserved m st []) (a : ℕ) :
    Conserved m (incref m st a) [] ∧ Releases st (incref m st a) fun _ => False := by
  have hstay : Conserved m st [] ∧ Releases st st fun _ => False := ⟨h, (Kept.refl st).releases _⟩
  rw [incref]
  split
  · exact hstay
  rename_i hc
  obtain ⟨q, rfl, hq⟩ := countable_frame (Bool.not_eq_false _ ▸ hc)
  dsimp only
  split
  · exact hstay
  rename_i hold
  rw [Nat.mul_div_cancel _ pageSize_pos] at hold ⊢
  simp only [not_or] at hold
  refine ⟨h.recount hold.2.1 (Nat.succ_ne_zero _), rfl, rfl, fun x hx hz => ?_⟩
  by_cases hxq : x = q
  · subst hxq
    simp [Caches.setRef, Nat.mul_div_cancel _ pageSize_pos] at hz
  · simp only [Caches.setRef, Nat.mul_div_cancel _ pageSize_pos, update_of_ne hxq] at hz
    exact absurd hz hx

/-- At most one reference to the frame has gone. -/
structure Drops (st st' : Caches) (q : ℕ) : Prop where
  managed : st'.pmm.managed = st.pmm.managed
  init : st'.pcpInitialized = st.pcpInitialized
  others : ∀ x ≠ q, st'.pmm.refcounts x = st.pmm.refcounts x
  down : st'.pmm.refcounts q = st.pmm.refcounts q ∨ st'.pmm.refcounts q + 1 = st.pmm.refcounts q

theorem Drops.refl (st : Caches) (q : ℕ) : Drops st st q := ⟨rfl, rfl, fun _ _ => rfl, .inl rfl⟩

theorem Drops.releases (h : Drops st st' q) : Releases st st' fun x => x = q := by
  refine ⟨h.managed, h.init, fun x hx hz => ?_⟩
  by_cases hxq : x = q
  · subst hxq
    have := h.down
    exact ⟨rfl, by omega⟩
  · rw [h.others x hxq] at hz
    exact absurd hz hx

variable {drop : ℕ → Prop}

theorem Releases.kept {st'' : Caches} (h : Releases st st' drop)
    (hk : Kept st' st'') : Releases st st'' drop := by
  refine ⟨hk.managed.trans h.managed, hk.init.trans h.init, fun q hq hz => ?_⟩
  by_cases hq' : st'.pmm.refcounts q = 0
  · exact h.last q hq hq'
  · exact absurd ((hk.refs q hq').symm.trans hz) hq'

theorem setRef_drops {v : ℕ} (hv : v + 1 = st.pmm.refcounts q) :
    Drops st (st.setRef (q * pageSize) v) q := by
  refine ⟨rfl, rfl, fun x hx => ?_, .inr ?_⟩
  · simp [Caches.setRef, Nat.mul_div_cancel _ pageSize_pos, update_of_ne hx]
  · simp only [Caches.setRef, Nat.mul_div_cancel _ pageSize_pos, update_self]
    exact hv

/-- **A reference goes**; if it was the last one, the frame is in hand. -/
theorem putRef_spec (h : Conserved m st hand) (hq : isManaged m st.pmm q = true) :
    Drops st (putRef st (q * pageSize)).2 q ∧
      Conserved m (putRef st (q * pageSize)).2
        (if (putRef st (q * pageSize)).1 then q * pageSize :: hand else hand) := by
  rw [putRef, Nat.mul_div_cancel _ pageSize_pos]
  by_cases hold : st.pmm.refcounts q = 0 ∨ st.pmm.refcounts q = pinned
  · rw [if_pos hold]
    exact ⟨.refl st q, h⟩
  rw [if_neg hold]
  simp only [not_or] at hold
  refine ⟨setRef_drops (by omega), ?_⟩
  by_cases hone : st.pmm.refcounts q = 1
  · rw [hone]
    exact h.dropRef hq hold.1
  · rw [decide_eq_false hone]
    exact h.recount hold.1 (by omega)

theorem pcpFreePage_false (h : st.pcpInitialized = false ∨ ownCpu cpu = none) :
    pcpFreePage m numa cpu st a = (false, st) := by
  rw [pcpFreePage]
  split
  · rfl
  rename_i hi
  rcases h with h | h
  · exact absurd (.inl h) hi
  · rw [h]

theorem decref_spec (h : Conserved m st []) (cpu : Option ℕ) (a : ℕ) :
    Conserved m (decref m numa cpu st a) [] ∧
      Releases st (decref m numa cpu st a) fun q => a = q * pageSize := by
  rw [decref]
  split
  · exact ⟨h, (Kept.refl st).releases _⟩
  rename_i hc
  obtain ⟨q, rfl, hq⟩ := countable_frame (Bool.not_eq_false _ ▸ hc)
  obtain ⟨hdrops, hcons⟩ := putRef_spec h hq
  have hrel : ∀ st1, Releases st st1 (fun x => x = q) →
      Releases st st1 fun x => q * pageSize = x * pageSize := fun st1 hr =>
    ⟨hr.managed, hr.init, fun x hx hz => (hr.last x hx hz).imp_left fun e => by rw [e]⟩
  generalize putRef st (q * pageSize) = r at hdrops hcons
  obtain ⟨last, st1⟩ := r
  cases last with
  | false => exact ⟨hcons, hrel _ hdrops.releases⟩
  | true =>
    simp only [if_true] at hcons
    obtain ⟨x, hx, -, hbit, -⟩ := hcons.hand_taken
    obtain rfl := Conserved.count_mul hx
    simp only [Nat.mul_div_cancel _ pageSize_pos, hbit]
    by_cases hcache : st1.pcpInitialized = false ∨ ownCpu cpu = none
    · rw [pcpFreePage_false hcache]
      obtain ⟨h1, hman, href⟩ := hcons.freeInternal (numa.zoneOf (q * pageSize))
      exact ⟨h1, hrel _ (hdrops.releases.kept ⟨hman, rfl, fun x _ => congrFun href x⟩)⟩
    simp only [not_or] at hcache
    obtain ⟨c, hcpu⟩ := Option.ne_none_iff_exists'.mp hcache.2
    have hput := pcpFreePage_spec numa hcons (Bool.not_eq_false _ ▸ hcache.1) hcpu
    generalize pcpFreePage m numa cpu st1 (q * pageSize) = r at hput
    obtain ⟨ok, st2⟩ := r
    obtain ⟨rfl, h1, h2⟩ := hput
    exact ⟨h1, hrel _ (hdrops.releases.kept h2)⟩

theorem releaseFrame_spec (h : Conserved m st []) (hq : isManaged m st.pmm q = true) (z : ℕ) :
    Conserved m (releaseFrame m z st (q * pageSize)) [] ∧
      Drops st (releaseFrame m z st (q * pageSize)) q := by
  obtain ⟨hdrops, hcons⟩ := putRef_spec h hq
  rw [releaseFrame]
  generalize putRef st (q * pageSize) = r at hdrops hcons
  obtain ⟨last, st1⟩ := r
  cases last with
  | false => exact ⟨hcons, hdrops⟩
  | true =>
    simp only [if_true] at hcons
    obtain ⟨x, hx, -, hbit, -⟩ := hcons.hand_taken
    obtain rfl := Conserved.count_mul hx
    simp only [Nat.mul_div_cancel _ pageSize_pos, hbit]
    obtain ⟨h1, hman, href⟩ := hcons.freeInternal z
    refine ⟨h1, hman.trans hdrops.managed, hdrops.init, fun x hx => ?_, ?_⟩
    · exact (congrFun href x).trans (hdrops.others x hx)
    have := hdrops.down
    rw [← congrFun href q] at this
    exact this

variable {l : List ℕ}

theorem releaseFrames_spec (h : Conserved m st []) (hnd : l.Nodup)
    (hl : ∀ q ∈ l, isManaged m st.pmm q = true) (z : ℕ) :
    Conserved m ((l.map (· * pageSize)).foldl (releaseFrame m z) st) [] ∧
      Releases st ((l.map (· * pageSize)).foldl (releaseFrame m z) st) (· ∈ l) ∧
      ∀ q ∉ l, ((l.map (· * pageSize)).foldl (releaseFrame m z) st).pmm.refcounts q =
        st.pmm.refcounts q := by
  induction l generalizing st with
  | nil => exact ⟨h, (Kept.refl st).releases _, fun _ _ => rfl⟩
  | cons q l ih =>
    obtain ⟨hout, hnd⟩ := nodup_cons.mp hnd
    obtain ⟨h1, hd⟩ := releaseFrame_spec h (hl q mem_cons_self) z
    obtain ⟨h2, h3, h4⟩ := ih h1 hnd fun x hx => by
      rw [isManaged, hd.managed]
      exact hl x (mem_cons_of_mem _ hx)
    rw [map_cons, foldl_cons]
    refine ⟨h2, ⟨h3.managed.trans hd.managed, h3.init.trans hd.init, fun x hx hz => ?_⟩,
      fun x hx => ?_⟩
    · by_cases hxq : x = q
      · subst hxq
        rw [h4 x hout] at hz
        exact ⟨mem_cons_self, (hd.releases.last x hx hz).2⟩
      · have hsame := hd.others x hxq
        obtain ⟨hin, hone⟩ := h3.last x (by rw [hsame]; exact hx) hz
        exact ⟨mem_cons_of_mem _ hin, hsame.symm.trans hone⟩
    · rw [h4 x fun hin => hx (mem_cons_of_mem _ hin)]
      exact hd.others x fun e => hx (e ▸ mem_cons_self)

/-- The frames of the block that a release is about. -/
def blockOf (addr count : ℕ) : List ℕ :=
  List.range' (addr / pageSize) (2 ^ getOrder count)

variable {count : ℕ}

theorem blockOf_map (h : a % (2 ^ getOrder count * pageSize) = 0) :
    (List.range (2 ^ getOrder count)).map (fun i => a + i * pageSize) =
      (blockOf a count).map (· * pageSize) := by
  have hal : a / pageSize * pageSize = a := Nat.div_mul_cancel
    ((Nat.dvd_mul_left _ _).trans (Nat.dvd_of_mod_eq_zero h))
  rw [blockOf, range'_eq_map_range, map_map]
  refine map_congr_left fun i _ => ?_
  simp [Nat.add_mul, hal]

theorem freePages_spec (h : Conserved m st []) (a count : ℕ) :
    Conserved m (freePages m numa st a count) [] ∧
      Releases st (freePages m numa st a count) (· ∈ blockOf a count) := by
  have hstay : Conserved m st [] ∧ Releases st st (· ∈ blockOf a count) :=
    ⟨h, (Kept.refl st).releases _⟩
  rw [freePages]
  split
  · exact hstay
  split
  · exact hstay
  rename_i hrange
  simp only [not_or, not_not] at hrange
  rw [blockOf_map hrange.2.2.2]
  split
  · exact hstay
  rename_i hman
  split
  · exact hstay
  have hall : ∀ q ∈ blockOf a count, isManaged m st.pmm q = true := fun q hq => by
    have := all_eq_true.mp (Bool.not_eq_false _ ▸ hman) (q * pageSize)
      (mem_map_of_mem (f := (· * pageSize)) hq)
    rwa [Nat.mul_div_cancel _ pageSize_pos] at this
  obtain ⟨h1, h2, -⟩ := releaseFrames_spec h nodup_range' hall (numa.getNode (numa.physToNode a))
  exact ⟨h1, h2⟩

/-! ## Releasing what nobody has -/

theorem putRef_ownerless (h : st.pmm.refcounts (a / pageSize) = 0) : putRef st a = (false, st) := by
  exact if_pos (.inl h)

theorem decref_ownerless (h : st.pmm.refcounts (a / pageSize) = 0) :
    decref m numa cpu st a = st := by
  rw [decref, putRef_ownerless h]
  split <;> rfl

theorem freePages_ownerless (h : ∀ q ∈ blockOf a count, st.pmm.refcounts q = 0) :
    freePages m numa st a count = st := by
  have hfold : ∀ l : List ℕ, (∀ q ∈ l, st.pmm.refcounts q = 0) →
      ∀ z, (l.map (· * pageSize)).foldl (releaseFrame m z) st = st := by
    intro l hl z
    induction l with
    | nil => rfl
    | cons q l ih =>
      have hq : st.pmm.refcounts (q * pageSize / pageSize) = 0 := by
        rw [Nat.mul_div_cancel _ pageSize_pos]
        exact hl q mem_cons_self
      rw [map_cons, foldl_cons, releaseFrame, putRef_ownerless hq]
      exact ih fun x hx => hl x (mem_cons_of_mem _ hx)
  rw [freePages]
  split
  · rfl
  split
  · rfl
  rename_i hrange
  simp only [not_or, not_not] at hrange
  rw [blockOf_map hrange.2.2.2]
  split
  · rfl
  split
  · rfl
  · exact hfold _ h _

/-! ## Drains of all CPUs -/

theorem foldl_spec {f : Caches → ℕ → Caches} (b : Bool)
    (hf : ∀ st c, c < maxCpus → st.pcpInitialized = b → Conserved m st hand →
      Keeps m st hand (f st c))
    (hl : ∀ c ∈ l, c < maxCpus) (hi : st.pcpInitialized = b) (h : Conserved m st hand) :
    Keeps m st hand (l.foldl f st) := by
  induction l generalizing st with
  | nil => exact ⟨h, .refl st⟩
  | cons c l ih =>
    obtain ⟨h1, h2⟩ := hf st c (hl c mem_cons_self) hi h
    obtain ⟨h3, h4⟩ := ih (fun x hx => hl x (mem_cons_of_mem _ hx)) (h2.init.trans hi) h1
    exact ⟨h3, h2.trans h4⟩

theorem zeroPoolDrainAll_spec (numa : Numa) (h : Conserved m st hand) (hcpu : ownCpu cpu = some c) :
    Keeps m st hand (zeroPoolDrainAll m numa cpu st) :=
  foldl_spec _ (fun _ _ hc _ h => drainPool_spec numa h hc hcpu) (fun _ hc => mem_range.mp hc) rfl h

theorem pcpDrainAll_spec (numa : Numa) (h : Conserved m st hand) (hcpu : ownCpu cpu = some c) :
    Keeps m st hand (pcpDrainAll m numa cpu st) := by
  rw [pcpDrainAll]
  split
  · exact ⟨h, .refl st⟩
  rename_i hi
  obtain ⟨h1, h2⟩ := zeroPoolDrainAll_spec numa h hcpu
  obtain ⟨h3, h4⟩ := foldl_spec true (fun _ _ hc hi h => drain_spec numa h hc hi)
    (fun _ hc => mem_range.mp hc) (h2.init.trans (Bool.not_eq_false _ ▸ hi)) h1
  exact ⟨h3, h2.trans h4⟩

/-! ## Operations -/

/-- The operations on frames.  The owner of a frame can write to it. -/
inductive Op
  | pcpInit
  | pcpAlloc (cpu : Option ℕ)
  | pcpFree (cpu : Option ℕ) (ptr : ℕ)
  | drainLocal (cpu : Option ℕ)
  | drainAll (cpu : Option ℕ)
  | zeroAlloc (cpu : Option ℕ)
  | zeroRefill (cpu : Option ℕ) (maxPages : ℕ)
  | zeroDrain (cpu : Option ℕ)
  | allocPage (zone : ℕ)
  | allocRange (zone count minPhys maxPhys : ℕ)
  | freePages (addr count : ℕ)
  | incref (ptr : ℕ)
  | decref (cpu : Option ℕ) (ptr : ℕ)
  | write (pfn : ℕ) (node : Circular.ListHead Ptr) (order magic : ℕ)

/-- What an operation returns, and the state after it. -/
def exec (m : Machine) (numa : Numa) (op : Op) (st : Caches) : Option ℕ × Caches :=
  match op with
  | .pcpInit => (none, pcpInit st)
  | .pcpAlloc cpu => pcpAllocPage m numa cpu st
  | .pcpFree cpu ptr => (none, (pcpFreePage m numa cpu st ptr).2)
  | .drainLocal cpu => (none, pcpDrainLocal m numa cpu st)
  | .drainAll cpu => (none, pcpDrainAll m numa cpu st)
  | .zeroAlloc cpu => allocZeroedPage cpu st
  | .zeroRefill cpu maxPages => (none, zeroPoolRefill m numa cpu maxPages st)
  | .zeroDrain cpu => (none, zeroPoolDrainAll m numa cpu st)
  | .allocPage z =>
    let (r, s) := allocPageLocked m st.pmm z
    (r, { st with pmm := s })
  | .allocRange z count lo hi =>
    let (r, s) := allocPagesRange m st.pmm z count lo hi
    (r, { st with pmm := s })
  | .freePages a count => (none, freePages m numa st a count)
  | .incref a => (none, incref m st a)
  | .decref cpu a => (none, decref m numa cpu st a)
  | .write p node order magic =>
    (none, { st with pmm := { st.pmm with
      node := update st.pmm.node (.page p) node
      order := update st.pmm.order p order
      magic := update st.pmm.magic p magic } })

/-- The order of the block that an operation allocates. -/
def Op.order : Op → ℕ
  | .allocRange _ count _ _ => getOrder count
  | _ => 0

/-- Boot sets the caches up once, pools are drained by a CPU that is known, and a frame is
written by those who have it, who do not forge a tag. -/
def Op.Proper (m : Machine) (st : Caches) : Op → Prop
  | .pcpInit => st.pcpInitialized = false
  | .drainAll cpu => ownCpu cpu ≠ none
  | .zeroDrain cpu => ownCpu cpu ≠ none
  | .write p _ _ magic => st.pmm.bitmap p = true ∧ ∀ z, magic ≠ m.magic z
  | _ => True

/-- The caller does not put a frame into a cache by itself. -/
def Op.Checked : Op → Prop
  | .pcpFree _ _ => False
  | _ => True

/-- The operation takes the last reference to a frame. -/
def Op.Frees (st : Caches) (q : ℕ) (op : Op) : Prop :=
  st.pmm.refcounts q = 1 ∧ match op with
    | .decref _ a => a = q * pageSize
    | .freePages a count => q ∈ blockOf a count
    | _ => False

structure Conserves (m : Machine) (st : Caches) (op : Op) (r : Option ℕ × Caches) : Prop where
  conserved : Conserved m r.2 []
  last : ∀ q, st.pmm.refcounts q ≠ 0 → r.2.pmm.refcounts q = 0 → op.Frees st q
  granted : ∀ {a}, r.1 = some a → ∃ p, a = p * pageSize ∧ ∀ q ∈ frames p op.order,
    isManaged m st.pmm q = true ∧ st.pmm.refcounts q = 0 ∧ r.2.pmm.refcounts q = 1

theorem Kept.last (h : Kept st st') (hq : st.pmm.refcounts q ≠ 0) : st'.pmm.refcounts q ≠ 0 := by
  rw [h.refs q hq]
  exact hq

variable {op : Op}

theorem Conserves.of_kept (h : Conserved m st' [] ∧ Kept st st') : Conserves m st op (none, st') :=
  ⟨h.1, fun _ hq hz => absurd hz (h.2.last hq), fun e => absurd e (by simp)⟩

theorem Conserves.of_grants {r : Option ℕ × Caches} (h : Grants m st [] r)
    (ho : op.order = 0) : Conserves m st op r := by
  refine ⟨h.conserved, fun _ hq hz => absurd hz (h.kept.last hq), fun e => ?_⟩
  obtain ⟨⟨p, rfl, hp, hr⟩, hone⟩ := h.granted e
  rw [Nat.mul_div_cancel _ pageSize_pos] at hone
  refine ⟨p, rfl, fun q hq => ?_⟩
  rw [ho] at hq
  obtain rfl : q = p := by
    obtain ⟨h1, h2⟩ := hq
    omega
  exact ⟨hp, hr, hone⟩

theorem Conserves.of_hands {r : Option ℕ × Pmm} (h : Hands m st [] op.order r) :
    Conserves m st op (r.1, { st with pmm := r.2 }) :=
  ⟨h.conserved, fun _ hq hz => absurd hz (h.kept.last hq), h.granted⟩

theorem Conserves.of_releases (h : Conserved m st' [] ∧ Releases st st' drop)
    (hd : ∀ q, drop q → st.pmm.refcounts q = 1 → op.Frees st q) : Conserves m st op (none, st') :=
  ⟨h.1, fun q hq hz => hd q (h.2.last q hq hz).1 (h.2.last q hq hz).2, fun e => absurd e (by simp)⟩

/-- **One operation.** -/
theorem exec_spec (numa : Numa) (h : Conserved m st []) (hp : op.Proper m st) (hc : op.Checked) :
    Conserves m st op (exec m numa op st) := by
  cases op with
  | pcpInit =>
    -- the caches are empty already
    have hpcp : (fun _ => []) = st.pcp := (funext fun c => (h.idle hp c).1).symm
    refine ⟨?_, fun _ hq hz => absurd hz hq, fun e => absurd e (by simp [exec])⟩
    rw [exec, pcpInit, hpcp]
    exact { h with idle := fun e => absurd e.symm Bool.false_ne_true }
  | pcpAlloc cpu => exact .of_grants (pcpAllocPage_spec numa cpu h) rfl
  | pcpFree cpu a => exact absurd hc id
  | drainLocal cpu => exact .of_kept (pcpDrainLocal_spec numa cpu h)
  | drainAll cpu =>
    obtain ⟨c, hcpu⟩ := Option.ne_none_iff_exists'.mp hp
    exact .of_kept (pcpDrainAll_spec numa h hcpu)
  | zeroAlloc cpu => exact .of_grants (allocZeroedPage_spec cpu h) rfl
  | zeroRefill cpu n => exact .of_kept (zeroPoolRefill_spec numa cpu h n)
  | zeroDrain cpu =>
    obtain ⟨c, hcpu⟩ := Option.ne_none_iff_exists'.mp hp
    exact .of_kept (zeroPoolDrainAll_spec numa h hcpu)
  | allocPage z =>
    obtain ⟨L, hL⟩ := h.lists
    have := h.hands (allocInternal_spec hL z 0).1
    rw [← allocPageLocked_eq hL] at this
    exact (Conserves.of_hands this : Conserves m st (.allocPage z) _)
  | allocRange z count lo hi =>
    obtain ⟨L, hL⟩ := h.lists
    exact (Conserves.of_hands (h.hands (allocPagesRange_spec hL z count lo hi)) :
      Conserves m st (.allocRange z count lo hi) _)
  | freePages a count => exact .of_releases (freePages_spec h a count) fun q hq h1 => ⟨h1, hq⟩
  | incref a => exact .of_releases (incref_spec h a) fun _ hq => absurd hq id
  | decref cpu a => exact .of_releases (decref_spec h cpu a) fun q hq h1 => ⟨h1, hq⟩
  | write p node order magic =>
    obtain ⟨hb, hm⟩ := hp
    obtain ⟨L, hL⟩ := h.lists
    refine ⟨h.replace ⟨L, hL.elsewhere ⟨rfl, rfl, fun _ => ⟨rfl, rfl⟩, fun _ _ => rfl,
      fun q hq => ?_, fun q hq z => ?_⟩⟩ rfl h.inHand fun _ _ => rfl,
      fun _ hq hz => absurd hz hq, fun e => absurd e (by simp [exec])⟩
    · have hqp : q ≠ p := by
        rintro rfl
        exact Bool.false_ne_true (hq.symm.trans hb)
      simp [words, hqp]
    · by_cases hqp : q = p
      · simpa [hqp] using hm z
      · simpa [hqp] using hL.magic_ne hq z

/-! ## Runs -/

def run (m : Machine) (numa : Numa) (ops : List Op) (st : Caches) : Caches :=
  ops.foldl (fun st op => (exec m numa op st).2) st

/-- Every operation of the sequence is proper when it starts, and satisfies `P`. -/
def Allowed (m : Machine) (numa : Numa) (P : Op → Prop) : List Op → Caches → Prop
  | [], _ => True
  | op :: ops, st => op.Proper m st ∧ P op ∧ Allowed m numa P ops (exec m numa op st).2

variable {ops : List Op}

theorem run_conserved (h : Conserved m st [])
    (ha : Allowed m numa Op.Checked ops st) : Conserved m (run m numa ops st) [] := by
  induction ops generalizing st with
  | nil => exact h
  | cons op ops ih => exact ih (exec_spec numa h ha.1 ha.2.1).conserved ha.2.2

/-- Between two states, one with a reference and one without, the last reference has gone. -/
theorem run_frees (h : Conserved m st []) (ha : Allowed m numa Op.Checked ops st)
    (hq : st.pmm.refcounts q ≠ 0) (hz : (run m numa ops st).pmm.refcounts q = 0) :
    ∃ pre op post, ops = pre ++ op :: post ∧ op.Frees (run m numa pre st) q := by
  induction ops generalizing st with
  | nil => exact absurd hz hq
  | cons op ops ih =>
    have hstep := exec_spec numa h ha.1 ha.2.1
    by_cases hnow : (exec m numa op st).2.pmm.refcounts q = 0
    · exact ⟨[], op, ops, rfl, hstep.last q hq hnow⟩
    · obtain ⟨pre, op', post, rfl, hf⟩ := ih hstep.conserved ha.2.2 hnow hz
      exact ⟨op :: pre, op', post, rfl, hf⟩

/-- **Frames are conserved.**  After boot and any sequence of operations that leaves putting
frames into the caches to `decref`, the refills and the drains: every managed frame is in exactly
one place, and the zones hold exactly the free ones; an allocation hands out frames that nobody
has; a frame that somebody has is not free again before its last reference has gone; and
releasing what nobody has changes nothing. -/
theorem pages_conserved {s : Pmm} {entries : List Entry} (hw : WholeFrames entries)
    (hm : Spans m entries) (ht : Untagged m s) (hi : pmmInit m numa entries s = some st)
    {ops : List Op} (ha : Allowed m numa Op.Checked ops st) : let now := run m numa ops st
    ((∃ L, FreeLists m now.pmm L ∅) ∧ ∀ q, isManaged m now.pmm q = true → places now [] q = 1) ∧
      (∀ op : Op, op.Proper m now → op.Checked → ∀ a, (exec m numa op now).1 = some a →
        ∃ p, a = p * pageSize ∧ ∀ q ∈ frames p op.order, isManaged m now.pmm q = true ∧
          now.pmm.refcounts q = 0 ∧ (exec m numa op now).2.pmm.refcounts q = 1) ∧
      (∀ later q, Allowed m numa Op.Checked later now → now.pmm.refcounts q ≠ 0 →
        (run m numa later now).pmm.refcounts q = 0 →
        ∃ pre op post, later = pre ++ op :: post ∧ op.Frees (run m numa pre now) q) ∧
      (∀ cpu a, now.pmm.refcounts (a / pageSize) = 0 → decref m numa cpu now a = now) ∧
      ∀ a count, (∀ q ∈ blockOf a count, now.pmm.refcounts q = 0) →
        freePages m numa now a count = now := by
  have h := run_conserved (pmmInit_conserved hw hm ht hi) ha
  exact ⟨⟨h.lists, h.once⟩, fun op hp hc a e => (exec_spec numa h hp hc).granted e,
    fun later q hl hq hz => run_frees h hl hq hz, fun cpu a => decref_ownerless,
    fun a count => freePages_ownerless⟩

/-! ## Four frames above 1 MiB -/

namespace SmallMap

def entries : List Entry := [⟨0x100000, 0x4000, .usable⟩]

def machine : Machine := { FourFrames.machine with lowest := 256, highest := 260 }

def oneNode : Numa := ⟨fun _ => 0, fun _ => 0, fun node => decide (node = 0), fun _ => [0]⟩

open FourFrames

/-- The state after boot; frame `257` is the zero page. -/
def booted : Caches :=
  (pmmInit machine oneNode entries blank).getD (Caches.bare blank 0)

theorem booted_eq : pmmInit machine oneNode entries blank = some booted :=
  (Option.getD_of_ne_none (by decide +kernel) _).symm

theorem wholeFrames : WholeFrames entries :=
  ⟨by decide, pairwise_singleton _ _⟩

theorem spans : Spans machine entries := ⟨by decide +kernel, by decide +kernel⟩

theorem untagged : Untagged machine blank := fun _ z => (machine.magic_ne_zero z).symm

def takeRelease : List Op := [.pcpInit, .pcpAlloc (some 0), .decref (some 0) (259 * pageSize)]

theorem booted_idle : booted.pcpInitialized = false := by decide +kernel

theorem takeRelease_allowed : Allowed machine oneNode Op.Checked takeRelease booted :=
  ⟨booted_idle, trivial, trivial, trivial, trivial, trivial, trivial⟩

end SmallMap

open SmallMap

/-- A frame that lies in a cache already is put into it once more, and handed out twice. -/
theorem cached_twice :
    ∃ m numa entries s st ops, WholeFrames entries ∧ Spans m entries ∧ Untagged m s ∧
      pmmInit m numa entries s = some st ∧ Allowed m numa (fun _ => True) ops st ∧
      (¬∀ q, isManaged m (run m numa ops st).pmm q = true → places (run m numa ops st) [] q = 1) ∧
      ∃ cpu a, (exec m numa (.pcpAlloc cpu) (run m numa ops st)).1 = some a ∧
        (exec m numa (.pcpAlloc cpu) (exec m numa (.pcpAlloc cpu) (run m numa ops st)).2).1 =
          some a := by
  refine ⟨machine, oneNode, entries, FourFrames.blank, booted,
    takeRelease ++ [.pcpFree (some 0) (259 * pageSize)], wholeFrames,
    spans, untagged, booted_eq, ?_, fun h => ?_, some 0,
    259 * pageSize, by decide +kernel, by decide +kernel⟩
  · exact ⟨booted_idle, trivial, trivial, trivial, trivial, trivial, trivial, trivial, trivial⟩
  · have := h 259 (by decide +kernel)
    exact absurd this (by decide +kernel)

theorem pages_conserved_released : places (run machine oneNode takeRelease booted) [] 259 = 1 :=
  (pages_conserved wholeFrames spans untagged booted_eq
    takeRelease_allowed).1.2 259 (by decide +kernel)

end AvoryOS.Mm
